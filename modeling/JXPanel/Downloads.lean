import JXPanel.FileManager
import JXPanel.Terminal

namespace JXPanel
set_option autoImplicit true

/-- What the panel's process knows when it answers a request. -/
structure Moment where
  db : Store
  apps_folder : List Char
  isPanelUninstalled : Bool
  now : Nat

/-- An entry of the list: the address for uploads, or an archive. -/
inductive ListedFile
  | upload
  | archive (count : Int) (location : String)
deriving DecidableEq

/-- An archive that is being made. -/
structure Archiving where
  zip_name : String
  zip_location : String
  username : String

/-- A file that is handed to a request: the link, the session, the user that was found for it, and the
one who had asked for the archive. -/
structure HandOut where
  url : String
  session : String
  user : Option String
  creator : Option String
deriving DecidableEq

/-- The list of the links with the sessions and the disk. Who asked for a link and what was handed out
is kept for the sake of what is said about them. -/
structure Downloads where
  sessions : Sessions
  file_list : Dict String ListedFile
  archiving : List Archiving
  transfers : List String
  present : String → Bool
  creators : Dict String String
  served : List HandOut

/-- What is done with the response of a request. -/
inductive Responded
  | ended (text : String)
  | uploading (user : ActiveUser)
  | piped (location : String)

/-- What is done with the response, and whether the request goes on to the next handler. -/
structure RequestResult where
  responded : List Responded
  goesOn : Bool

inductive DownloadEvent
  | session (e : SessionEvent)
  | downloadFile (m : Moment) (sessionId : String) (up : JsVal) (zip_name : String)
  /-- The command that makes an archive ends. -/
  | archived (zip_name : String) (failed : Bool)
  | request (m : Moment) (url : String) (session : Option String)
  /-- The last byte of a file is sent. -/
  | transferred (file_path : String)
  /-- Files are made and removed by others. -/
  | disk (present : String → Bool)

namespace Downloads

def start : Downloads :=
  { sessions := .empty, file_list := Dict.empty.set "/upload" .upload, archiving := [], transfers := []
    present := fun _ => false, creators := .empty, served := [] }

/-- `downloadFile`, until the command is started. -/
def downloadFile (s : Downloads) (m : Moment) (sessionId : String) (up : JsVal) (zip_name : String) :
    Downloads × Js (Option JsVal) :=
  let found := s.sessions.getUser m.db m.isPanelUninstalled sessionId m.now
  let s := { s with sessions := found.1 }
  match found.2 with
  | .error f => (s, .error f)
  | .ok none => (s, .ok (some accessDenied))
  | .ok (some active_user) =>
    match refused up with
    | .error f => (s, .error f)
    | .ok true => (s, .ok (some accessDenied))
    | .ok false =>
      match Sessions.homeFolder m.db m.apps_folder active_user with
      | .error f => (s, .error f)
      | .ok path =>
        let home := String.ofList path
        let folder := home ++ sep ++ "__panel_downloads"
        let users := s.sessions.users.modify sessionId fun u => { u with path := some path }
        let s := { s with sessions := { s.sessions with users := users } }
        if !s.present folder && !s.present home then (s, .error (.thrown "ENOENT"))
        else
          let s := { s with present := fun p => decide (p = folder) || s.present p }
          match stripSlash up with
          | .error f => (s, .error f)
          | .ok loc =>
            if !s.present (home ++ sep ++ loc) then (s, .ok (some (reloadError "FileNotFound")))
            else
              let zip_location := folder ++ sep ++ zip_name
              ({ s with archiving := s.archiving ++ [⟨zip_name, zip_location, active_user.username⟩] }, .ok none)

/-- The rest of `downloadFile`: an archive that is there gets a link. -/
def archived (s : Downloads) (zip_name : String) (failed : Bool) : Downloads × Option JsVal :=
  match s.archiving.find? fun a => a.zip_name = zip_name with
  | none => (s, none)
  | some a =>
    let s := { s with archiving := s.archiving.filter fun b => b.zip_name ≠ zip_name }
    if failed then (s, some (errorOf (.str "Error")))
    else if !s.present a.zip_location then (s, some (errorOf (.str "Output:")))
    else
      ({ s with
          file_list := s.file_list.set ("/" ++ zip_name) (.archive 1 a.zip_location)
          creators := s.creators.set ("/" ++ zip_name) a.username },
        some (.obj [("link", .str ("/" ++ zip_name)), ("name", .str zip_name)]))

/-- The handler of every request. After "User session is expired" it goes on, and the count that it takes
down is never read. -/
def check (s : Downloads) (m : Moment) (url : String) (session : Option String) : Downloads × Js RequestResult :=
  match s.file_list.get? url with
  | none => (s, .ok ⟨[], true⟩)
  | some file =>
    match session.filter fun id => id ≠ "" with
    | none => (s, .ok ⟨[.ended "Resource is not found"], false⟩)
    | some id =>
      let found := s.sessions.getUser m.db m.isPanelUninstalled id m.now
      let s := { s with sessions := found.1 }
      match found.2 with
      | .error f => (s, .error f)
      | .ok active_user =>
        let expired := if active_user.isSome then [] else [Responded.ended "User session is expired"]
        match file with
        | .upload =>
          match active_user with
          -- `user.lang`, behind the response that has ended
          | none => (s, .error .typeError)
          | some user => (s, .ok ⟨[.uploading user], false⟩)
        | .archive count location =>
          let s := { s with file_list := s.file_list.set url (.archive (count - 1) location) }
          if s.present location then
            ({ s with
                transfers := s.transfers ++ [location]
                served := s.served ++ [⟨url, id, active_user.map (·.username), s.creators.get? url⟩] },
              .ok ⟨expired ++ [.piped location], false⟩)
          else ({ s with file_list := s.file_list.erase url }, .ok ⟨expired, true⟩)

/-- The file is removed as it has been sent, which fails for one that is gone. -/
def transferred (s : Downloads) (file_path : String) : Downloads × Js Unit :=
  if file_path ∈ s.transfers then
    let s := { s with transfers := s.transfers.erase file_path }
    if s.present file_path then
      ({ s with present := fun p => decide (p ≠ file_path) && s.present p }, .ok ())
    else (s, .error (.thrown "ENOENT"))
  else (s, .ok ())

def after (s : Downloads) : DownloadEvent → Downloads
  | .session e => { s with sessions := s.sessions.after e }
  | .downloadFile m sessionId up zip_name => (s.downloadFile m sessionId up zip_name).1
  | .archived zip_name failed => (s.archived zip_name failed).1
  | .request m url session => (s.check m url session).1
  | .transferred file_path => (s.transferred file_path).1
  | .disk present => { s with present := present }

def run (s : Downloads) (es : List DownloadEvent) : Downloads := es.foldl after s

/-- The name of an archive was not given before. -/
def Fresh (s : Downloads) : DownloadEvent → Prop
  | .downloadFile _ _ _ zip_name => "/" ++ zip_name ∉ s.creators
  | _ => True

/-- A request that carries the id of a session comes for a listed archive, with this user for the session. -/
structure Asks (s : Downloads) (m : Moment) (url id : String) (user : Option ActiveUser) (location : String) : Prop where
  session : id ≠ ""
  listed : ∃ count, s.file_list.get? url = some (.archive count location)
  found : (s.sessions.getUser m.db m.isPanelUninstalled id m.now).2 = .ok user

/-- The archive is there when it is asked for. -/
def Opens (s : Downloads) (e : DownloadEvent) (m : Moment) (url id : String) (user : Option ActiveUser) : Prop :=
  ∃ location, e = .request m url (some id) ∧ s.Asks m url id user location ∧ s.present location = true

def Misses (s : Downloads) (e : DownloadEvent) (url : String) : Prop :=
  ∃ m id user location, e = .request m url (some id) ∧ s.Asks m url id user location ∧ s.present location = false

/-- No archive that has been handed out is asked for while it is there. -/
def NoSecond (s : Downloads) (e : DownloadEvent) : Prop :=
  ∀ m url id user, s.Opens e m url id user → url ∉ s.served.map HandOut.url

/-- An archive is asked for by a session of the one it was made for. -/
def ByCreator (s : Downloads) (e : DownloadEvent) : Prop :=
  ∀ m url id user, s.Opens e m url id user → m.isPanelUninstalled = false ∧
    ∃ u, s.sessions.users.get? id = some u ∧ s.creators.get? url = some u.username

end Downloads

/-- The file went to the user who had asked for the archive. -/
def HandOut.ToCreator (h : HandOut) : Prop := ∃ username, h.user = some username ∧ h.creator = some username

namespace Downloads
variable {s : Downloads} {e : DownloadEvent} {m : Moment} {url id : String} {user : Option ActiveUser}

/-- What an event leaves alone that is about no listed archive. -/
structure Apart (s s' : Downloads) : Prop where
  file_list : s'.file_list = s.file_list
  creators : s'.creators = s.creators
  served : s'.served = s.served

theorem downloadFile_apart (s : Downloads) (m : Moment) (sessionId : String) (up : JsVal) (zip_name : String) :
    s.Apart (s.downloadFile m sessionId up zip_name).1 ∧
      ∀ a ∈ (s.downloadFile m sessionId up zip_name).1.archiving, a ∈ s.archiving ∨ a.zip_name = zip_name := by
  unfold downloadFile
  have hkept : ∀ s' : Downloads, s'.archiving = s.archiving → s.Apart s' →
      s.Apart s' ∧ ∀ a ∈ s'.archiving, a ∈ s.archiving ∨ a.zip_name = zip_name :=
    fun s' ha h => ⟨h, fun a hmem => .inl (ha ▸ hmem)⟩
  dsimp only
  split
  · exact hkept _ rfl ⟨rfl, rfl, rfl⟩
  · exact hkept _ rfl ⟨rfl, rfl, rfl⟩
  · split
    · exact hkept _ rfl ⟨rfl, rfl, rfl⟩
    · exact hkept _ rfl ⟨rfl, rfl, rfl⟩
    · split
      · exact hkept _ rfl ⟨rfl, rfl, rfl⟩
      · split
        · exact hkept _ rfl ⟨rfl, rfl, rfl⟩
        · split
          · exact hkept _ rfl ⟨rfl, rfl, rfl⟩
          · split
            · exact hkept _ rfl ⟨rfl, rfl, rfl⟩
            · refine ⟨⟨rfl, rfl, rfl⟩, fun a ha => ?_⟩
              rcases List.mem_append.1 ha with ha | ha
              · exact .inl ha
              · rw [List.mem_singleton.1 ha]
                exact .inr rfl

theorem transferred_apart (s : Downloads) (file_path : String) : s.Apart (s.transferred file_path).1 := by
  unfold transferred
  split
  · dsimp only
    split
    · exact ⟨rfl, rfl, rfl⟩
    · exact ⟨rfl, rfl, rfl⟩
  · exact ⟨rfl, rfl, rfl⟩

/-- An archive that is made keeps the links there are. -/
theorem archived_served (s : Downloads) (zip_name : String) (failed : Bool) :
    (s.archived zip_name failed).1.served = s.served := by
  unfold archived
  split
  · rfl
  · dsimp only
    split
    · rfl
    · split
      · rfl
      · rfl

section Check
variable {location : String}

/-- A request that does not ask for a listed archive changes no link. -/
theorem check_apart {session : Option String}
    (h : ∀ id user location, session = some id → ¬s.Asks m url id user location) :
    s.Apart (s.check m url session).1 ∧ (s.check m url session).1.archiving = s.archiving := by
  unfold check
  cases hfile : s.file_list.get? url with
  | none => exact ⟨⟨rfl, rfl, rfl⟩, rfl⟩
  | some file =>
    cases hsession : session.filter fun id => id ≠ "" with
    | none => exact ⟨⟨rfl, rfl, rfl⟩, rfl⟩
    | some id =>
      obtain ⟨hid, hne⟩ := Option.filter_eq_some_iff.1 hsession
      dsimp only
      cases hfound : (s.sessions.getUser m.db m.isPanelUninstalled id m.now).2 with
      | error f => exact ⟨⟨rfl, rfl, rfl⟩, rfl⟩
      | ok active_user =>
        cases file with
        | upload => cases active_user <;> exact ⟨⟨rfl, rfl, rfl⟩, rfl⟩
        | archive count location =>
          exact (h id active_user location hid ⟨of_decide_eq_true hne, ⟨count, hfile⟩, hfound⟩).elim

/-- What is done with a request that asks for a listed archive depends on its file alone. -/
theorem Asks.check (h : s.Asks m url id user location) :
    ∃ count sessions, (s.check m url (some id)).1 =
      if s.present location then
        { s with
          sessions
          file_list := s.file_list.set url (.archive (count - 1) location)
          transfers := s.transfers ++ [location]
          served := s.served ++ [⟨url, id, user.map (·.username), s.creators.get? url⟩] }
      else { s with sessions, file_list := (s.file_list.set url (.archive (count - 1) location)).erase url } := by
  obtain ⟨hne, ⟨count, hlisted⟩, hfound⟩ := h
  refine ⟨count, (s.sessions.getUser m.db m.isPanelUninstalled id m.now).1, ?_⟩
  have hsession : (some id).filter (fun id => id ≠ "") = some id := by
    rw [Option.filter_some, if_pos (decide_eq_true hne)]
  rw [Downloads.check, hlisted, hsession]
  dsimp only
  rw [hfound]
  dsimp only
  split
  · rfl
  · rfl

end Check

theorem Opens.served (h : s.Opens e m url id user) :
    (s.after e).served = s.served ++ [⟨url, id, user.map (·.username), s.creators.get? url⟩] := by
  obtain ⟨location, rfl, hasks, hpresent⟩ := h
  obtain ⟨count, sessions, hcheck⟩ := hasks.check
  rw [after, hcheck, if_pos hpresent]

/-- Nothing is handed out in any other way. -/
theorem served_kept (h : ∀ m url id user, ¬s.Opens e m url id user) : (s.after e).served = s.served := by
  cases e with
  | session e => rfl
  | downloadFile m sessionId up zip_name => exact (s.downloadFile_apart m sessionId up zip_name).1.served
  | archived zip_name failed => exact s.archived_served zip_name failed
  | transferred file_path => exact (s.transferred_apart file_path).served
  | disk present => rfl
  | request m url session =>
    by_cases hask : ∃ id user location, session = some id ∧ s.Asks m url id user location
    · obtain ⟨id, user, location, rfl, hasks⟩ := hask
      have hgone : s.present location ≠ true := fun hp => h m url id user ⟨location, rfl, hasks, hp⟩
      obtain ⟨count, sessions, hcheck⟩ := hasks.check
      rw [after, hcheck, if_neg hgone]
    · have hnone : ∀ id user location, session = some id → ¬s.Asks m url id user location :=
        fun id user location hs ha => hask ⟨id, user, location, hs, ha⟩
      exact (check_apart hnone).1.served

section Once

/-- No link has been handed out twice. -/
def AtMostOnce (s : Downloads) : Prop := (s.served.map HandOut.url).Nodup

theorem Opens.atMostOnce_iff (h : s.Opens e m url id user) (hs : s.AtMostOnce) :
    (s.after e).AtMostOnce ↔ url ∉ s.served.map HandOut.url := by
  rw [AtMostOnce, h.served, List.map_append, List.map_singleton, List.nodup_append]
  constructor
  · rintro ⟨-, -, hapart⟩ hmem
    exact hapart url hmem url (List.mem_singleton_self url) rfl
  · intro hnew
    refine ⟨hs, List.pairwise_singleton _ _, fun x hx y hy heq => ?_⟩
    rw [heq, List.mem_singleton.1 hy] at hx
    exact hnew hx

theorem atMostOnce_after_iff (hs : s.AtMostOnce) : (s.after e).AtMostOnce ↔ s.NoSecond e := by
  by_cases hopen : ∃ m url id user, s.Opens e m url id user
  · obtain ⟨m, url, id, user, hopen⟩ := hopen
    rw [hopen.atMostOnce_iff hs]
    constructor
    · intro hnew m' url' id' user' hopen'
      obtain ⟨_, heq, -, -⟩ := hopen'
      obtain ⟨_, rfl, -, -⟩ := hopen
      cases heq
      exact hnew
    · exact fun hsecond => hsecond m url id user hopen
  · have hnone : ∀ m url id user, ¬s.Opens e m url id user := fun m url id user ho => hopen ⟨m, url, id, user, ho⟩
    rw [AtMostOnce, served_kept hnone]
    exact ⟨fun _ m url id user ho => (hnone m url id user ho).elim, fun _ => hs⟩

/-- What was handed out stays handed out. -/
theorem served_prefix (s : Downloads) (e : DownloadEvent) : s.served <+: (s.after e).served := by
  by_cases hopen : ∃ m url id user, s.Opens e m url id user
  · obtain ⟨m, url, id, user, hopen⟩ := hopen
    rw [hopen.served]
    exact List.prefix_append _ _
  · have hnone : ∀ m url id user, ¬s.Opens e m url id user := fun m url id user ho => hopen ⟨m, url, id, user, ho⟩
    rw [served_kept hnone]

end Once

section Creator

/-- Every file went to the one who had asked for it. -/
def AllToCreators (s : Downloads) : Prop := ∀ h ∈ s.served, h.ToCreator

/-- The user that is found for a session that is logged in. -/
theorem found_some_iff {ss : Sessions} {db : Store} {uninstalled : Bool} {now : Nat} {r : Option ActiveUser}
    (h : (ss.getUser db uninstalled id now).2 = .ok r) (username : String) :
    r.map (·.username) = some username ↔
      uninstalled = false ∧ ∃ u, ss.users.get? id = some u ∧ u.username = username := by
  rw [Sessions.getUser] at h
  cases hu : ss.users.get? id with
  | none =>
    rw [hu] at h
    cases h
    exact iff_of_false (fun hc => by cases hc) fun hc => by simp at hc
  | some active_user =>
    rw [hu] at h
    cases uninstalled with
    | true =>
      cases h
      exact iff_of_false (fun hc => by cases hc) fun hc => by simp at hc
    | false =>
      dsimp only at h
      rw [if_neg Bool.false_ne_true] at h
      cases hr : Sessions.refresh db active_user with
      | error f =>
        rw [hr] at h
        cases h
      | ok u =>
        rw [hr] at h
        cases h
        have hname : u.username = active_user.username := (Sessions.refresh_kept hr).1
        rw [Option.map_some, Option.some_inj, hname]
        constructor
        · exact fun he => ⟨rfl, active_user, rfl, he⟩
        · rintro ⟨-, v, hv, he⟩
          rw [Option.some.inj hv]
          exact he

theorem Opens.toCreator_iff (h : s.Opens e m url id user) :
    HandOut.ToCreator ⟨url, id, user.map (·.username), s.creators.get? url⟩ ↔
      m.isPanelUninstalled = false ∧ ∃ u, s.sessions.users.get? id = some u ∧ s.creators.get? url = some u.username := by
  obtain ⟨location, -, hasks, -⟩ := h
  constructor
  · rintro ⟨username, huser, hcreator⟩
    obtain ⟨hinstalled, u, hu, rfl⟩ := (found_some_iff hasks.found username).1 huser
    exact ⟨hinstalled, u, hu, hcreator⟩
  · rintro ⟨hinstalled, u, hu, hcreator⟩
    exact ⟨u.username, (found_some_iff hasks.found u.username).2 ⟨hinstalled, u, hu, rfl⟩, hcreator⟩

theorem allToCreators_after_iff (hs : s.AllToCreators) : (s.after e).AllToCreators ↔ s.ByCreator e := by
  by_cases hopen : ∃ m url id user, s.Opens e m url id user
  · obtain ⟨m, url, id, user, hopen⟩ := hopen
    rw [AllToCreators, hopen.served]
    constructor
    · intro hall m' url' id' user' hopen'
      apply hopen'.toCreator_iff.1
      apply hall
      rw [hopen.served.symm.trans hopen'.served]
      exact List.mem_append_right _ (List.mem_singleton_self _)
    · intro hby h hmem
      rcases List.mem_append.1 hmem with hmem | hmem
      · exact hs h hmem
      · rw [List.mem_singleton.1 hmem]
        exact hopen.toCreator_iff.2 (hby m url id user hopen)
  · have hnone : ∀ m url id user, ¬s.Opens e m url id user := fun m url id user ho => hopen ⟨m, url, id, user, ho⟩
    rw [AllToCreators, served_kept hnone]
    exact ⟨fun _ m url id user ho => (hnone m url id user ho).elim, fun _ => hs⟩

end Creator

section Listed

/-- Every link that is listed or was handed out is known by who had asked for it, and no archive that is
being made is called like one of them. -/
structure Tracked (s : Downloads) : Prop where
  listed : ∀ url count location, s.file_list.get? url = some (.archive count location) → url ∈ s.creators
  served : ∀ h ∈ s.served, h.url ∈ s.creators
  archiving : ∀ a ∈ s.archiving, "/" ++ a.zip_name ∉ s.creators

theorem tracked_start : Tracked start := by
  refine ⟨fun url count location h => ?_, fun h hh => absurd hh List.not_mem_nil, fun a ha => absurd ha List.not_mem_nil⟩
  rw [start, Dict.get?_set] at h
  split at h
  · cases h
  · cases h

theorem Tracked.of_apart {s' : Downloads} (h : Tracked s) (hapart : s.Apart s')
    (harch : ∀ a ∈ s'.archiving, "/" ++ a.zip_name ∉ s.creators) : Tracked s' := by
  refine ⟨fun url count location hl => ?_, fun h' hh => ?_, fun a ha => ?_⟩
  · rw [hapart.creators]
    rw [hapart.file_list] at hl
    exact h.listed url count location hl
  · rw [hapart.creators]
    rw [hapart.served] at hh
    exact h.served h' hh
  · rw [hapart.creators]
    exact harch a ha

theorem Tracked.archived (h : Tracked s) (zip_name : String) (failed : Bool) : Tracked (s.archived zip_name failed).1 := by
  unfold Downloads.archived
  cases hfind : s.archiving.find? (fun a => a.zip_name = zip_name) with
  | none => exact h
  | some a =>
    dsimp only
    have hrest : ∀ b ∈ s.archiving.filter (fun b => decide (b.zip_name ≠ zip_name)), "/" ++ b.zip_name ∉ s.creators :=
      fun b hb => h.archiving b (List.mem_of_mem_filter hb)
    split
    · exact ⟨h.listed, h.served, hrest⟩
    · split
      · exact ⟨h.listed, h.served, hrest⟩
      · refine ⟨fun url count location hl => ?_, fun h' hh => ?_, fun b hb hmem => ?_⟩
        · rw [Dict.get?_set] at hl
          rw [Dict.mem_set]
          split at hl
          · rename_i heq
            exact .inl heq
          · exact .inr (h.listed url count location hl)
        · exact Dict.mem_set.2 (.inr (h.served h' hh))
        · rcases Dict.mem_set.1 hmem with heq | hmem
          · have hname := of_decide_eq_true (List.mem_filter.1 hb).2
            exact hname (String.append_right_inj "/" |>.1 heq)
          · exact hrest b hb hmem

theorem Tracked.check (h : Tracked s) (m : Moment) (url : String) (session : Option String) :
    Tracked (s.check m url session).1 := by
  by_cases hask : ∃ id user location, session = some id ∧ s.Asks m url id user location
  · obtain ⟨id, user, location, rfl, hasks⟩ := hask
    obtain ⟨count, sessions, hcheck⟩ := hasks.check
    obtain ⟨before, hbefore⟩ := hasks.listed
    have hurl := h.listed url before location hbefore
    rw [hcheck]
    split
    · refine ⟨fun url' count' location' hl => ?_, fun h' hh => ?_, h.archiving⟩
      · rw [Dict.get?_set] at hl
        split at hl
        · rename_i heq
          exact heq ▸ hurl
        · exact h.listed url' count' location' hl
      · rcases List.mem_append.1 hh with hh | hh
        · exact h.served h' hh
        · rw [List.mem_singleton.1 hh]
          exact hurl
    · refine ⟨fun url' count' location' hl => ?_, h.served, h.archiving⟩
      rw [Dict.get?_erase, Dict.get?_set] at hl
      split at hl
      · cases hl
      · exact h.listed url' count' location' hl
  · have hnone : ∀ id user location, session = some id → ¬s.Asks m url id user location :=
      fun id user location hs ha => hask ⟨id, user, location, hs, ha⟩
    obtain ⟨hapart, harch⟩ := check_apart hnone
    exact h.of_apart hapart (harch ▸ h.archiving)

theorem Tracked.after (h : Tracked s) (hfresh : s.Fresh e) : Tracked (s.after e) := by
  cases e with
  | session e => exact h.of_apart ⟨rfl, rfl, rfl⟩ h.archiving
  | disk present => exact h.of_apart ⟨rfl, rfl, rfl⟩ h.archiving
  | transferred file_path =>
    apply h.of_apart (s.transferred_apart file_path)
    have harch : (s.transferred file_path).1.archiving = s.archiving := by
      unfold transferred
      split
      · dsimp only
        split
        · rfl
        · rfl
      · rfl
    intro a ha
    exact h.archiving a (harch ▸ ha)
  | downloadFile m sessionId up zip_name =>
    obtain ⟨hkept, harch⟩ := s.downloadFile_apart m sessionId up zip_name
    apply h.of_apart hkept
    intro a ha
    rcases harch a ha with ha | ha
    · exact h.archiving a ha
    · rw [ha]
      exact hfresh
  | archived zip_name failed => exact h.archived zip_name failed
  | request m url session => exact h.check m url session

/-- A link leaves the list just when its archive is asked for and is not there. -/
theorem Tracked.listed_after_iff (h : Tracked s) (hurl : url ∈ s.creators) :
    url ∈ (s.after e).file_list ↔ url ∈ s.file_list ∧ ¬s.Misses e url := by
  have hother : ∀ s' : Downloads, s'.file_list = s.file_list → ¬s.Misses e url →
      (url ∈ s'.file_list ↔ url ∈ s.file_list ∧ ¬s.Misses e url) := by
    intro s' heq hno
    rw [heq]
    exact (and_iff_left hno).symm
  cases e with
  | session e => exact hother _ rfl fun hm => by obtain ⟨_, _, _, _, he, -⟩ := hm; cases he
  | disk present => exact hother _ rfl fun hm => by obtain ⟨_, _, _, _, he, -⟩ := hm; cases he
  | transferred file_path =>
    exact hother _ (s.transferred_apart file_path).file_list fun hm => by obtain ⟨_, _, _, _, he, -⟩ := hm; cases he
  | downloadFile m sessionId up zip_name =>
    exact hother _ (s.downloadFile_apart m sessionId up zip_name).1.file_list
      fun hm => by obtain ⟨_, _, _, _, he, -⟩ := hm; cases he
  | archived zip_name failed =>
    have hno : ¬s.Misses (.archived zip_name failed) url := fun hm => by obtain ⟨_, _, _, _, he, -⟩ := hm; cases he
    rw [Downloads.after, Downloads.archived]
    cases hfind : s.archiving.find? (fun a => a.zip_name = zip_name) with
    | none => exact hother _ rfl hno
    | some a =>
      have hnew : url ≠ "/" ++ zip_name := by
        rintro rfl
        have hfound := List.find?_some (p := fun a : Archiving => decide (a.zip_name = zip_name)) hfind
        have hname : a.zip_name = zip_name := of_decide_eq_true hfound
        exact h.archiving a (List.mem_of_find?_eq_some hfind) (hname ▸ hurl)
      dsimp only
      split
      · exact hother _ rfl hno
      · split
        · exact hother _ rfl hno
        · rw [Dict.mem_set, or_iff_right hnew]
          exact (and_iff_left hno).symm
  | request m url' session =>
    by_cases hask : ∃ id user location, session = some id ∧ s.Asks m url' id user location
    · obtain ⟨id, user, location, rfl, hasks⟩ := hask
      obtain ⟨count, sessions, hcheck⟩ := hasks.check
      obtain ⟨before, hbefore⟩ := hasks.listed
      have hthere : url' ∈ s.file_list := Dict.mem_of_get? hbefore
      rw [Downloads.after, hcheck]
      split
      · rename_i hpresent
        have hno : ¬s.Misses (.request m url' (some id)) url := by
          rintro ⟨m', id', user', location', he, hasks', hgone⟩
          cases he
          obtain ⟨_, hlisted⟩ := hasks'.listed
          rw [hbefore] at hlisted
          cases hlisted
          rw [hpresent] at hgone
          cases hgone
        rw [Dict.mem_set]
        constructor
        · rintro (rfl | hu)
          · exact ⟨hthere, hno⟩
          · exact ⟨hu, hno⟩
        · exact fun hu => .inr hu.1
      · rename_i hpresent
        rw [Dict.mem_erase, Dict.mem_set]
        constructor
        · rintro ⟨hne, heq | hu⟩
          · exact (hne heq).elim
          · refine ⟨hu, ?_⟩
            rintro ⟨m', id', user', location', he, -, -⟩
            cases he
            exact hne rfl
        · rintro ⟨hu, hno⟩
          refine ⟨?_, .inr hu⟩
          rintro rfl
          exact hno ⟨m, id, user, location, rfl, hasks, Bool.eq_false_iff.2 hpresent⟩
    · have hnone : ∀ id user location, session = some id → ¬s.Asks m url' id user location :=
        fun id user location hs ha => hask ⟨id, user, location, hs, ha⟩
      apply hother _ (check_apart hnone).1.file_list
      rintro ⟨m', id', user', location', he, hasks, -⟩
      cases he
      exact hnone id' user' location' rfl hasks

/-- An event that hands out a link leaves it in the list. -/
theorem Opens.listed (h : s.Opens e m url id user) : url ∈ (s.after e).file_list := by
  obtain ⟨location, rfl, hasks, hpresent⟩ := h
  obtain ⟨count, sessions, hcheck⟩ := hasks.check
  rw [after, hcheck, if_pos hpresent]
  exact Dict.mem_set.2 (.inl rfl)

/-- A link that was handed out has been asked for again after its archive was gone. -/
def Swept (es : List DownloadEvent) (url : String) : Prop :=
  ∃ pre e post, es = pre ++ e :: post ∧ url ∈ (start.run pre).served.map HandOut.url ∧ (start.run pre).Misses e url

theorem run_append (s : Downloads) (es fs : List DownloadEvent) : s.run (es ++ fs) = (s.run es).run fs :=
  List.foldl_append

theorem served_run (s : Downloads) (es : List DownloadEvent) (h : url ∈ s.served.map HandOut.url) :
    url ∈ (s.run es).served.map HandOut.url := by
  induction es generalizing s with
  | nil => exact h
  | cons e es ih => exact ih _ (((s.served_prefix e).sublist.map HandOut.url).subset h)

theorem tracked_run {es : List DownloadEvent} (h : Runs.AllOk after Fresh start es) : Tracked (start.run es) :=
  (Runs.Reached.start.run h).keeps tracked_start fun _ _ ht hf => ht.after hf

theorem unlisted_iff {es : List DownloadEvent} (h : Runs.AllOk after Fresh start es) {url : String}
    (hurl : url ∈ (start.run es).served.map HandOut.url) : url ∉ (start.run es).file_list ↔ Swept es url := by
  induction es using List.reverseRecOn with
  | nil => exact absurd hurl List.not_mem_nil
  | append_singleton es e ih =>
    obtain ⟨hbefore, -⟩ := Runs.allOk_append.1 h
    have htracked := tracked_run hbefore
    have hstep : start.run (es ++ [e]) = (start.run es).after e := run_append start es [e]
    rw [hstep] at hurl ⊢
    by_cases hserved : url ∈ (start.run es).served.map HandOut.url
    · obtain ⟨h', hh', rfl⟩ := List.mem_map.1 hserved
      rw [htracked.listed_after_iff (htracked.served h' hh')]
      constructor
      · intro hgone
        by_cases hmiss : (start.run es).Misses e h'.url
        · exact ⟨es, e, [], rfl, hserved, hmiss⟩
        · have hunlisted : h'.url ∉ (start.run es).file_list := fun hl => hgone ⟨hl, hmiss⟩
          obtain ⟨pre, e', post, rfl, hpre, hswept⟩ := (ih hbefore hserved).1 hunlisted
          exact ⟨pre, e', post ++ [e], by simp, hpre, hswept⟩
      · rintro ⟨pre, e', post, heq, hpre, hmiss⟩ ⟨hlisted, hno⟩
        rcases List.eq_nil_or_concat post with rfl | ⟨post, e'', rfl⟩
        · obtain ⟨rfl, he⟩ := List.append_inj' heq rfl
          cases he
          exact hno hmiss
        · rw [List.concat_eq_append, ← List.cons_append, ← List.append_assoc] at heq
          obtain ⟨rfl, -⟩ := List.append_inj' heq rfl
          exact (ih hbefore hserved).2 ⟨pre, e', post, rfl, hpre, hmiss⟩ hlisted
    · have hopen : ∃ m id user, (start.run es).Opens e m url id user := by
        by_contra hnone
        by_cases hany : ∃ m url' id user, (start.run es).Opens e m url' id user
        · obtain ⟨m, url', id, user, ho⟩ := hany
          rw [ho.served, List.map_append, List.map_singleton] at hurl
          rcases List.mem_append.1 hurl with hm | hm
          · exact hserved hm
          · rw [List.mem_singleton.1 hm] at hnone
            exact hnone ⟨m, id, user, ho⟩
        · rw [served_kept fun m url' id user ho => hany ⟨m, url', id, user, ho⟩] at hurl
          exact hserved hurl
      obtain ⟨m, id, user, hopen⟩ := hopen
      constructor
      · exact fun hgone => (hgone hopen.listed).elim
      · rintro ⟨pre, e', post, heq, hpre, hmiss⟩
        exfalso
        have hlonger : url ∈ (start.run es).served.map HandOut.url := by
          rcases List.eq_nil_or_concat post with rfl | ⟨post, e'', rfl⟩
          · obtain ⟨rfl, -⟩ := List.append_inj' heq rfl
            exact hpre
          · rw [List.concat_eq_append, ← List.cons_append, ← List.append_assoc] at heq
            obtain ⟨rfl, -⟩ := List.append_inj' heq rfl
            rw [run_append]
            exact served_run _ _ hpre
        exact hserved hlonger

end Listed

/-- In every run: no file is handed out twice just when none is asked for again while it is there, every
file goes to the one who asked for the archive just when it is asked for by a session of his, and a link
that was handed out is off the list just when it has been asked for again after the file was gone. -/
theorem link_served_iff {es : List DownloadEvent} (h : Runs.AllOk after Fresh start es) :
    ((start.run es).AtMostOnce ↔ Runs.AllOk after NoSecond start es) ∧
      ((start.run es).AllToCreators ↔ Runs.AllOk after ByCreator start es) ∧
      ∀ h ∈ (start.run es).served, h.url ∉ (start.run es).file_list ↔ Swept es h.url := by
  have hnone : start.AtMostOnce := List.nodup_nil
  refine ⟨?_, ?_, ?_⟩
  · apply Runs.keeps_iff (fun s e hs => atMostOnce_after_iff hs) _ hnone
    intro s e hs
    exact hs.sublist ((s.served_prefix e).sublist.map HandOut.url)
  · apply Runs.keeps_iff (fun s e hs => allToCreators_after_iff hs) _ fun h hh => absurd hh List.not_mem_nil
    intro s e hs h hh
    exact hs h ((s.served_prefix e).subset hh)
  · intro h' hh'
    exact unlisted_iff h (List.mem_map_of_mem hh')

/-- A moment of a panel with one user. -/
def oneUser : Moment := ⟨installed.run [.addUser unlimitedPlanName "ann" .empty], "/srv".toList, false, 20⟩

/-- A user asks for an archive, and a session that there is not gets it, twice. -/
def strangerEvents : List DownloadEvent :=
  [.session (.login "s1" "gr1" "ann" (some (1000, 1000)) 5), .disk fun _ => true,
    .downloadFile oneUser "s1" (.str "site") "File_1.zip", .archived "File_1.zip" false,
    .request oneUser "/File_1.zip" (some "s2"), .request oneUser "/File_1.zip" (some "s2")]

theorem fresh_strangerEvents : Runs.AllOk after Fresh start strangerEvents := by
  have hnew : "/" ++ "File_1.zip" ∉ (start.run (strangerEvents.take 2)).creators := by decide
  exact ⟨trivial, trivial, hnew, trivial, trivial, trivial, trivial⟩

theorem served_strangerEvents : (start.run strangerEvents).served =
    [⟨"/File_1.zip", "s2", none, some "ann"⟩, ⟨"/File_1.zip", "s2", none, some "ann"⟩] := by
  decide +kernel

theorem link_served_iff_sample :
    ((start.run strangerEvents).AtMostOnce ↔ Runs.AllOk after NoSecond start strangerEvents) ∧
      ((start.run strangerEvents).AllToCreators ↔ Runs.AllOk after ByCreator start strangerEvents) ∧
      ∀ h ∈ (start.run strangerEvents).served,
        h.url ∉ (start.run strangerEvents).file_list ↔ Swept strangerEvents h.url :=
  link_served_iff fresh_strangerEvents

/-- A link serves a session that has ended, as often as it is asked for, and stays on the list. -/
theorem stranger_served_twice : ¬∀ es, Runs.AllOk after Fresh start es →
    (start.run es).AtMostOnce ∧ (start.run es).AllToCreators ∧
      ∀ h ∈ (start.run es).served, h.url ∉ (start.run es).file_list := by
  intro h
  have honce := (h strangerEvents fresh_strangerEvents).1
  rw [AtMostOnce, served_strangerEvents] at honce
  revert honce
  decide

end Downloads
end JXPanel

import JXPanel.Collect
import JXPanel.Records
import JXPanel.Runs

namespace JXPanel
set_option autoImplicit true

/-- A logged-in user as the panel's process keeps him, under the id of his session. -/
structure ActiveUser where
  username : String
  uid : Nat
  gid : Nat
  groupIdPrefix : String
  plan : Option String
  ssh : JsVal
  suspended_txt : Bool
  terminal : Bool
  path : Option (List Char)
  /-- The record that each form of the session edits. -/
  edits : Dict String String

/-- The three tables of the sessions, the copy that the scheduler's thread works on and the
messages that it has sent. -/
structure Sessions where
  users : Dict String ActiveUser
  sessionIDs : KeySet
  shared : Dict String Nat
  table : List String
  messages : List String

namespace Sessions

def empty : Sessions := ⟨.empty, .empty, .empty, [], []⟩

def newUser (groupIdPrefix username : String) : ActiveUser :=
  { username, uid := 0, gid := 0, groupIdPrefix, plan := none, ssh := .undefined
    suspended_txt := false, terminal := false, path := none, edits := .empty }

/-- The ids of the user are those of his system account, if there is one. -/
def loginUser (s : Sessions) (sessionId groupIdPrefix username : String)
    (ids : Option (Nat × Nat)) (now : Nat) : Sessions × Bool :=
  let users := s.users.set sessionId (newUser groupIdPrefix username)
  match ids with
  | none => ({ s with users := users.erase sessionId }, false)
  | some (uid, gid) =>
    ({ s with
        users := users.modify sessionId fun u => { u with uid := uid, gid := gid }
        sessionIDs := s.sessionIDs.set sessionId ()
        shared := s.shared.set sessionId now }, true)

/-- What `getUser` copies from the record of the user. -/
def refresh (db : Store) (active_user : ActiveUser) : Js ActiveUser :=
  match db.users.get? active_user.username with
  | none => .ok active_user
  | some user =>
    match db.plans.get? user.plan with
    | none => .error .typeError
    | some p =>
      .ok { active_user with
            plan := if user.plan = "" then active_user.plan else some user.plan
            ssh := prop p.fields "plan_ssh"
            suspended_txt := user.suspended.truthy }

/-- All sessions end once the folder of the applications is gone. -/
def uninstall (s : Sessions) : Sessions :=
  { s with users := .empty, sessionIDs := .empty, shared := s.shared.eraseAll s.users.keys }

def getUser (s : Sessions) (db : Store) (isPanelUninstalled : Bool) (sessionId : String)
    (now : Nat) : Sessions × Js (Option ActiveUser) :=
  match s.users.get? sessionId with
  | none => (s, .ok none)
  | some active_user =>
    if isPanelUninstalled then (s.uninstall, .ok none)
    else
      let s := { s with shared := s.shared.set sessionId now }
      match refresh db active_user with
      | .error f => (s, .error f)
      | .ok u => ({ s with users := s.users.set sessionId u }, .ok (some u))

def clearUser (s : Sessions) (sessionId : String) : Sessions × Js Unit :=
  match s.users.get? sessionId with
  | none => (s, .error .typeError)
  | some _ =>
    ({ s with
        users := s.users.erase sessionId
        sessionIDs := s.sessionIDs.erase sessionId
        shared := s.shared.erase sessionId }, .ok ())

/-- One pass of the loop over the sessions; one that is gone is not met again. -/
def clearIfNamed (username : String) (s : Sessions) (sessionId : String) : Sessions × Js Unit :=
  match s.users.get? sessionId with
  | none => (s, .ok ())
  | some u => if u.username = username then s.clearUser sessionId else (s, .ok ())

def clearUserByName (s : Sessions) (username : String) : Sessions × Js Unit :=
  Collect.runAll (clearIfNamed username) s.users.keys s

/-- Ten minutes without a request. -/
def timeout : Nat := 600000

/-- The ids that the thread sends messages for. -/
def check_users (s : Sessions) (dt : Nat) : List String :=
  s.table.filter fun o =>
    match s.shared.get? o with
    | none => false
    | some tm => decide (tm ≠ 0) && decide (tm + timeout < dt)

end Sessions

/-- What happens to the sessions. -/
inductive SessionEvent
  | login (sessionId groupIdPrefix username : String) (ids : Option (Nat × Nat)) (now : Nat)
  | request (db : Store) (isPanelUninstalled : Bool) (sessionId : String) (now : Nat)
  | logout (sessionId : String)
  | clearByName (username : String)
  /-- The table is handed to the scheduler's thread. -/
  | schedule
  | check (now : Nat)
  /-- The oldest message of the thread arrives. -/
  | deliver

namespace Sessions

def deliver (s : Sessions) : Sessions × Js Unit :=
  match s.messages with
  | [] => (s, .ok ())
  | sessionId :: messages => { s with messages := messages }.clearUser sessionId

def step (s : Sessions) : SessionEvent → Sessions × Js Unit
  | .login sessionId groupIdPrefix username ids now =>
    ((s.loginUser sessionId groupIdPrefix username ids now).1, .ok ())
  | .request db isPanelUninstalled sessionId now =>
    let r := s.getUser db isPanelUninstalled sessionId now
    (r.1, r.2.map fun _ => ())
  | .logout sessionId => s.clearUser sessionId
  | .clearByName username => s.clearUserByName username
  | .schedule => ({ s with table := s.sessionIDs.keys }, .ok ())
  | .check now => ({ s with messages := s.messages ++ s.check_users now }, .ok ())
  | .deliver => s.deliver

/-- The store of the sessions is left as it is when a handler throws. -/
def after (s : Sessions) (e : SessionEvent) : Sessions := (s.step e).1

/-- The three tables hold the same ids. -/
structure Coherent (s : Sessions) : Prop where
  ids : ∀ sid, sid ∈ s.users ↔ sid ∈ s.sessionIDs
  stored : ∀ sid, sid ∈ s.users ↔ sid ∈ s.shared

/-- A session is ended only while there is one, and a login fails only where there is none. -/
def Live (s : Sessions) : SessionEvent → Prop
  | .login sessionId _ _ none _ => sessionId ∉ s.users
  | .logout sessionId => sessionId ∈ s.users
  | .deliver => ∀ sessionId ∈ s.messages.head?, sessionId ∈ s.users
  | _ => True

/-- The events that call `clearUser`. -/
def Clears : SessionEvent → Prop
  | .logout _ => True
  | .clearByName _ => True
  | .deliver => True
  | _ => False

/-- No missing session is used, and the tables agree afterwards. -/
def Safe (s : Sessions) (e : SessionEvent) : Prop :=
  Coherent (s.after e) ∧ (Clears e → (s.step e).2 = .ok ())

variable {s : Sessions} {sid : String}

theorem coherent_empty : Coherent empty := ⟨fun _ => Iff.rfl, fun _ => Iff.rfl⟩

theorem Coherent.clearUser (h : Coherent s) (hsid : sid ∈ s.users) :
    Coherent (s.clearUser sid).1 ∧ (s.clearUser sid).2 = .ok () := by
  obtain ⟨u, hu⟩ := Dict.mem_iff.1 hsid
  rw [Sessions.clearUser, hu]
  refine ⟨⟨?_, ?_⟩, rfl⟩
  · intro t
    rw [Dict.mem_erase, Dict.mem_erase, h.ids]
  · intro t
    rw [Dict.mem_erase, Dict.mem_erase, h.stored]

theorem clearUser_missing (hsid : sid ∉ s.users) : s.clearUser sid = (s, .error .typeError) := by
  rw [Sessions.clearUser, Dict.get?_eq_none.2 hsid]

theorem Coherent.login (h : Coherent s) (groupIdPrefix username : String)
    (ids : Nat × Nat) (now : Nat) :
    Coherent (s.loginUser sid groupIdPrefix username (some ids) now).1 := by
  refine ⟨?_, ?_⟩
  · intro t
    rw [loginUser, Dict.mem_modify, Dict.mem_set, Dict.mem_set, h.ids]
  · intro t
    rw [loginUser, Dict.mem_modify, Dict.mem_set, Dict.mem_set, h.stored]

/-- A failed login leaves the tables coherent just when there was no session under the id. -/
theorem Coherent.failed_login_iff (h : Coherent s) (groupIdPrefix username : String) (now : Nat) :
    Coherent (s.loginUser sid groupIdPrefix username none now).1 ↔ sid ∉ s.users := by
  constructor
  · intro hc hsid
    have hgone : sid ∈ s.sessionIDs := (h.ids sid).1 hsid
    exact (Dict.mem_erase.1 ((hc.ids sid).2 hgone)).1 rfl
  · intro hsid
    have hsame : ∀ t, t ∈ (s.loginUser sid groupIdPrefix username none now).1.users ↔
        t ∈ s.users := by
      intro t
      rw [loginUser, Dict.mem_erase, Dict.mem_set]
      constructor
      · rintro ⟨hne, he | ht⟩
        · exact (hne he).elim
        · exact ht
      · intro ht
        refine ⟨?_, .inr ht⟩
        rintro rfl
        exact hsid ht
    exact ⟨fun t => (hsame t).trans (h.ids t), fun t => (hsame t).trans (h.stored t)⟩

theorem Coherent.uninstall (h : Coherent s) : Coherent s.uninstall := by
  refine ⟨fun _ => Iff.rfl, ?_⟩
  intro t
  rw [Sessions.uninstall, Dict.mem_eraseAll]
  constructor
  · intro ht
    exact absurd ht (Dict.not_mem_empty t)
  · rintro ⟨hn, ht⟩
    exact (hn (Dict.mem_keys.2 ((h.stored t).2 ht))).elim

theorem Coherent.getUser (h : Coherent s) (db : Store) (isPanelUninstalled : Bool) (now : Nat) :
    Coherent (s.getUser db isPanelUninstalled sid now).1 := by
  unfold Sessions.getUser
  cases hu : s.users.get? sid with
  | none => exact h
  | some active_user =>
    have hsid := Dict.mem_of_get? hu
    dsimp only
    split
    · exact h.uninstall
    · have hshared : ∀ t, t ∈ s.users ↔ t ∈ s.shared.set sid now := by
        intro t
        rw [Dict.mem_set, ← h.stored]
        constructor
        · exact Or.inr
        · rintro (rfl | ht)
          · exact hsid
          · exact ht
      have hset : ∀ u t, t ∈ s.users.set sid u ↔ t ∈ s.users := by
        intro u t
        rw [Dict.mem_set]
        constructor
        · rintro (rfl | ht)
          · exact hsid
          · exact ht
        · exact Or.inr
      cases refresh db active_user with
      | error f => exact ⟨h.ids, hshared⟩
      | ok u => exact ⟨fun t => (hset u t).trans (h.ids t), fun t => (hset u t).trans (hshared t)⟩

theorem Coherent.clearUserByName (h : Coherent s) (username : String) :
    Coherent (s.clearUserByName username).1 ∧ (s.clearUserByName username).2 = .ok () := by
  unfold Sessions.clearUserByName
  generalize s.users.keys = l
  induction l generalizing s with
  | nil => exact ⟨h, rfl⟩
  | cons sid l ih =>
    have hone : Coherent (clearIfNamed username s sid).1 ∧
        (clearIfNamed username s sid).2 = .ok () := by
      unfold clearIfNamed
      cases hu : s.users.get? sid with
      | none => exact ⟨h, rfl⟩
      | some u =>
        dsimp only
        split
        · exact h.clearUser (Dict.mem_of_get? hu)
        · exact ⟨h, rfl⟩
    rw [Collect.runAll]
    rcases hr : clearIfNamed username s sid with ⟨s', r⟩
    rw [hr] at hone
    obtain ⟨h', rfl⟩ := hone
    exact ih h'

theorem Coherent.clearUser_iff (h : Coherent s) :
    (Coherent (s.clearUser sid).1 ∧ (s.clearUser sid).2 = .ok ()) ↔ sid ∈ s.users := by
  constructor
  · rintro ⟨-, hok⟩
    by_contra hsid
    rw [clearUser_missing hsid] at hok
    cases hok
  · exact h.clearUser

/-- What an event does to coherent tables is safe just when it is about a session there is. -/
theorem Coherent.safe_iff (h : Coherent s) (e : SessionEvent) : s.Safe e ↔ s.Live e := by
  cases e with
  | login sid group username ids now =>
    cases ids with
    | none =>
      rw [Live, ← h.failed_login_iff group username now]
      exact and_iff_left fun hc => hc.elim
    | some ids => exact ⟨fun _ => trivial, fun _ => ⟨h.login group username ids now, fun hc => hc.elim⟩⟩
  | request db isPanelUninstalled sid now =>
    exact ⟨fun _ => trivial, fun _ => ⟨h.getUser db isPanelUninstalled now, fun hc => hc.elim⟩⟩
  | logout sid =>
    rw [Live, ← h.clearUser_iff, Safe]
    exact and_congr_right fun _ => ⟨fun hok => hok trivial, fun hok _ => hok⟩
  | clearByName username =>
    have hboth := h.clearUserByName username
    exact ⟨fun _ => trivial, fun _ => ⟨hboth.1, fun _ => hboth.2⟩⟩
  | schedule => exact ⟨fun _ => trivial, fun _ => ⟨⟨h.ids, h.stored⟩, fun hc => hc.elim⟩⟩
  | check now => exact ⟨fun _ => trivial, fun _ => ⟨⟨h.ids, h.stored⟩, fun hc => hc.elim⟩⟩
  | deliver =>
    cases hm : s.messages with
    | nil =>
      have hstep : s.step .deliver = (s, .ok ()) := by
        rw [step, deliver, hm]
      rw [Safe, after, hstep, Live, hm]
      refine ⟨fun _ sid hsid => ?_, fun _ => ⟨h, fun _ => rfl⟩⟩
      cases hsid
    | cons sid messages =>
      have hstep : s.step .deliver = { s with messages := messages }.clearUser sid := by
        rw [step, deliver, hm]
      have hrest : Coherent { s with messages := messages } := ⟨h.ids, h.stored⟩
      rw [Safe, after, hstep, Live, hm]
      constructor
      · rintro ⟨hc, hok⟩ t ht
        rw [← Option.mem_some_iff.1 ht]
        exact hrest.clearUser_iff.1 ⟨hc, hok trivial⟩
      · intro hlive
        have hboth := hrest.clearUser_iff.2 (hlive sid rfl)
        exact ⟨hboth.1, fun _ => hboth.2⟩

/-- In a run whose events are all about sessions there are, the tables agree in every state, and
in each of these the events that are safe are the events of that kind. -/
theorem coherent_of_live (h : Runs.Reached after empty Live s) :
    Coherent s ∧ ∀ e, s.Safe e ↔ s.Live e := by
  have hc : Coherent s := h.keeps coherent_empty fun t e ht he => ((ht.safe_iff e).2 he).1
  exact ⟨hc, hc.safe_iff⟩

/-- A session that times out while its user stays away. -/
theorem coherent_of_live_sample : Coherent ([.login "s1" "gr1" "ann" (some (1000, 1000)) 5, .schedule,
    .check 700000, .deliver].foldl after empty) := by
  apply And.left
  apply coherent_of_live
  apply Runs.Reached.run .start
  refine ⟨trivial, trivial, trivial, ?_, trivial⟩
  intro sid hsid
  rw [← Option.mem_some_iff.1 (show sid ∈ some "s1" from hsid)]
  decide

/-- The message of a timeout finds a session that was logged out, and a failed login leaves the
session it hid in the tables of the timeout. -/
theorem teardown_unsafe : ¬∀ s, Runs.Reached after empty (fun _ _ => True) s →
    Coherent s ∧ ∀ e, s.Safe e := by
  intro h
  have hrun : Runs.Reached after empty (fun _ _ => True)
      ([.login "s1" "gr1" "ann" (some (1000, 1000)) 5, .schedule, .check 700000,
        .logout "s1"].foldl after empty) := by
    apply Runs.Reached.run .start
    exact ⟨trivial, trivial, trivial, trivial, trivial⟩
  have hok := ((h _ hrun).2 .deliver).2 trivial
  revert hok
  decide

end Sessions
end JXPanel

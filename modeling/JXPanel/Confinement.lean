import JXPanel.FileManager

namespace JXPanel
set_option autoImplicit true

open Paths

/-- The requests of the file manager that carry one path. -/
inductive PathRequest
  | getFileInfo
  | getFiles
  | getFile
  | saveFile
  | removeFileFolder
  | downloadFile
  | chFile
deriving DecidableEq

namespace PathRequest

def handle (zip_name : ZipName) : PathRequest → Files → Session → FileParams → Handled
  | getFileInfo => JXPanel.getFileInfo
  | getFiles => JXPanel.getFiles
  | getFile => JXPanel.getFile
  | saveFile => JXPanel.saveFile
  | removeFileFolder => JXPanel.removeFileFolder
  | downloadFile => JXPanel.downloadFile zip_name
  | chFile => JXPanel.chFile

/-- The text that a request puts behind the home. -/
def text (r : PathRequest) (up : JsVal) : Js String :=
  match r with
  | downloadFile => stripSlash up
  | chFile => stripSlash up
  | _ => .ok up.toKey

end PathRequest

namespace Session
variable (user : Session)

/-- A path that denotes the home or something below it. -/
def Inside (path : String) : Prop := Paths.Inside user.home.toList path.toList

/-- A text that climbs out of the home, if at all, only to come back into it. -/
def Stays (text : String) : Prop := (Offset.of (moves text.toList)).Returns (place user.home.toList)

/-- A text that is no absolute path, or is one of something in the home. -/
def AbsoluteInside (text : String) : Prop := text.toList.head? = some '/' → user.Inside text

theorem path_toList (text : String) :
    (user.path text).toList = user.home.toList ++ '/' :: text.toList := by
  simp [path, sep]

theorem inside_path_iff (text : String) : user.Inside (user.path text) ↔ user.Stays text := by
  rw [Inside, path_toList]
  exact inside_join_iff _ _

theorem inside_path_of_no_dots {text : String} (h : ¬ ['.', '.'] <:+: text.toList) :
    user.Inside (user.path text) := by
  rw [Inside, path_toList]
  exact inside_join_of_no_up _ (no_up_of_no_dots h)

theorem inside_home : user.Inside user.home := inside_self _

/-- What is put behind a path inside and does not go up stays inside. -/
theorem Inside.join {path text : String} (h : user.Inside path)
    (ht : Move.up ∉ moves text.toList) : user.Inside (path ++ sep ++ text) := by
  have hlist : (path ++ sep ++ text).toList = path.toList ++ '/' :: text.toList := by
    simp [sep]
  rw [Inside, hlist]
  exact h.trans (inside_join_of_no_up _ ht)

end Session

/-- The paths that an operation is about denote the home or something below it. -/
def FileOp.Within (user : Session) : FileOp → Prop
  | existsSync path => user.Inside path
  | lstat path => user.Inside path
  | stat path => user.Inside path
  | readdir path => user.Inside path
  | readFile path => user.Inside path
  | writeFile path _ => user.Inside path
  | mkdir path => user.Inside path
  | rmdir path => user.Inside path
  | unlink path => user.Inside path
  | rename path pathTo => user.Inside path ∧ user.Inside pathTo
  | chmod _ path => user.Inside path
  | chown _ _ path => user.Inside path
  | zip location cwd path =>
    user.Inside location ∧ place user.home.toList <+: resolve cwd.toList path.toList

section Guard

theorem not_infix_of_hasDots {s : String} (h : hasDots s = false) : ¬ ['.', '.'] <:+: s.toList :=
  of_decide_eq_false h

/-- A string that is not refused has no two dots in a row. -/
theorem accepted_str {s : String} (h : refused (.str s) = .ok false) :
    s ≠ "" ∧ ¬ ['.', '.'] <:+: s.toList := by
  have h := Except.ok.inj h
  rw [Bool.or_eq_false_iff] at h
  exact ⟨of_decide_eq_false h.1, not_infix_of_hasDots h.2⟩

/-- Only strings and arrays are not refused. -/
theorem accepted_cases {up : JsVal} (h : refused up = .ok false) :
    (∃ s, up = .str s) ∨ ∃ l, up = .arr l := by
  cases up with
  | str s => exact .inl ⟨s, rfl⟩
  | arr l => exact .inr ⟨l, rfl⟩
  | obj fs =>
    unfold refused at h
    dsimp only at h
    split at h <;> cases h
  | undefined => cases h
  | null => cases h
  | bool b => cases h
  | num n => cases h

theorem not_infix_strip {s t : String} (h : ¬ ['.', '.'] <:+: s.toList)
    (ht : stripSlash (.str s) = .ok t) : ¬ ['.', '.'] <:+: t.toList := by
  have ht := Except.ok.inj ht
  subst ht
  unfold withoutSlash
  split
  · intro hin
    rw [String.toList_ofList] at hin
    exact h (hin.trans (List.tail_suffix _).isInfix)
  · exact h

/-- What a request makes of a string that is not refused has no two dots in a row either. -/
theorem text_no_dots {r : PathRequest} {s t : String} (h : refused (.str s) = .ok false)
    (ht : r.text (.str s) = .ok t) : ¬ ['.', '.'] <:+: t.toList := by
  have hs := (accepted_str h).2
  cases r with
  | downloadFile => exact not_infix_strip hs ht
  | chFile => exact not_infix_strip hs ht
  | _ =>
    cases ht
    exact hs

end Guard

/-- When a request stays in the home: an array whose items, joined with commas, make a text that
does, and for an archive no absolute path that leads elsewhere. -/
structure PathRequest.Confined (r : PathRequest) (user : Session) (up : JsVal) : Prop where
  joined : ∀ l t, up = .arr l → refused up = .ok false → r.text up = .ok t → user.Stays t
  archived : r = .downloadFile → ∀ t, refused up = .ok false → r.text up = .ok t →
    user.AbsoluteInside t

def Handled.Within (user : Session) (h : Handled) : Prop := ∀ op ∈ h.1, op.Within user

section Handlers
variable {files : Files} {user : Session} {params : FileParams}

theorem Handled.within_guardedBy {up : JsVal} {body : Handled}
    (h : refused up = .ok false → body.Within user) : (guardedBy up body).Within user := by
  unfold guardedBy
  cases hr : refused up with
  | error f => exact fun op hop => absurd hop List.not_mem_nil
  | ok b =>
    cases b with
    | true => exact fun op hop => absurd hop List.not_mem_nil
    | false => exact h hr

theorem marked_ops (files : Files) (ops : List FileOp) (path : String) :
    (marked files user ops path).1 = ops ++ [.chown user.uid user.gid path] := by
  unfold marked
  dsimp only
  split <;> rfl

theorem Handled.within_marked {ops : List FileOp} {path : String}
    (hops : ∀ op ∈ ops, op.Within user) (hpath : user.Inside path) :
    (marked files user ops path).Within user := by
  intro op hop
  rw [marked_ops] at hop
  rcases List.mem_append.1 hop with hop | hop
  · exact hops op hop
  · rw [List.mem_singleton.1 hop]
    exact hpath

theorem inside_location {up : JsVal} (h : user.Inside (user.path up.toKey)) :
    user.Inside (user.location up) := by
  unfold Session.location
  split
  · exact user.inside_home
  · exact h

theorem within_getFileInfo
    (h : refused params.up = .ok false → user.Inside (user.path params.up.toKey)) :
    (getFileInfo files user params).Within user := by
  apply Handled.within_guardedBy
  intro hacc op hop
  rw [List.mem_singleton.1 hop]
  exact inside_location (h hacc)

theorem within_getFiles
    (h : refused params.up = .ok false → user.Inside (user.path params.up.toKey)) :
    (getFiles files user params).Within user := by
  apply Handled.within_guardedBy
  intro hacc
  have hloc := inside_location (h hacc)
  cases hdir : files.readdir (user.location params.up) with
  | none =>
    intro op hop
    dsimp only at hop
    rw [hdir] at hop
    rw [List.mem_singleton.1 hop]
    exact hloc
  | some names =>
    intro op hop
    dsimp only at hop
    rw [hdir] at hop
    rcases List.mem_cons.1 hop with rfl | hop
    · exact hloc
    · obtain ⟨name, hname, rfl⟩ := List.mem_map.1 hop
      apply Session.Inside.join user hloc
      rw [files.names _ _ hdir name hname]
      simp

/-- A few operations that are all about one path inside. -/
theorem Handled.within_of_all {ops : List FileOp} {r : Js JsVal} {path : String}
    (h : user.Inside path)
    (hops : ∀ op ∈ ops, user.Inside path → op.Within user) : Handled.Within user (ops, r) :=
  fun op hop => hops op hop h

theorem within_getFile
    (h : refused params.up = .ok false → user.Inside (user.path params.up.toKey)) :
    (getFile files user params).Within user := by
  apply Handled.within_guardedBy
  intro hacc
  have h := h hacc
  dsimp only
  split
  · exact Handled.within_of_all h (by simp [FileOp.Within])
  · split
    · exact Handled.within_of_all h (by simp [FileOp.Within])
    · split
      · exact Handled.within_of_all h (by simp [FileOp.Within])
      · exact Handled.within_of_all h (by simp [FileOp.Within])

theorem within_saveFile
    (h : refused params.up = .ok false → user.Inside (user.path params.up.toKey)) :
    (saveFile files user params).Within user := by
  apply Handled.within_guardedBy
  intro hacc
  have h := h hacc
  dsimp only
  split
  · exact Handled.within_of_all h (by simp [FileOp.Within])
  · split
    · exact Handled.within_of_all h (by simp [FileOp.Within])
    · apply Handled.within_marked _ h
      simp [FileOp.Within, h]

theorem within_removeFileFolder
    (h : refused params.up = .ok false → user.Inside (user.path params.up.toKey)) :
    (removeFileFolder files user params).Within user := by
  apply Handled.within_guardedBy
  intro hacc
  have h := h hacc
  dsimp only
  split
  · exact Handled.within_of_all h (by simp [FileOp.Within])
  · split
    · split
      · exact Handled.within_of_all h (by simp [FileOp.Within])
      · exact Handled.within_of_all h (by simp [FileOp.Within])
      · exact Handled.within_of_all h (by simp [FileOp.Within])
    · exact Handled.within_of_all h (by simp [FileOp.Within])

theorem within_chFile (h : ∀ t, refused params.up = .ok false → stripSlash params.up = .ok t →
    user.Inside (user.path t)) : (chFile files user params).Within user := by
  apply Handled.within_guardedBy
  intro hacc
  cases hs : stripSlash params.up with
  | error f => exact fun op hop => absurd hop List.not_mem_nil
  | ok loc =>
    have h := h loc hacc hs
    dsimp only
    split
    · exact Handled.within_of_all h (by simp [FileOp.Within])
    · split
      · exact Handled.within_of_all h (by simp [FileOp.Within])
      · apply Handled.within_marked _ h
        simp [FileOp.Within, h]

theorem inside_downloads : user.Inside (downloads user) :=
  user.inside_path_of_no_dots (by decide)

theorem prefix_resolve_iff (text : String) :
    place user.home.toList <+: resolve user.home.toList text.toList ↔
      if text.toList.head? = some '/' then user.Inside text else user.Stays text := by
  unfold resolve
  split
  · exact Iff.rfl
  · exact prefix_walk_iff _ _

theorem within_downloadFile {zip_name : ZipName}
    (h : ∀ t, refused params.up = .ok false → stripSlash params.up = .ok t →
      user.Inside (user.path t) ∧ user.AbsoluteInside t) :
    (downloadFile zip_name files user params).Within user := by
  apply Handled.within_guardedBy
  intro hacc
  have hdown : user.Inside (downloads user) := inside_downloads
  have hops : ∀ op ∈ (if files.present (downloads user) then [FileOp.existsSync (downloads user)]
      else [.existsSync (downloads user), .mkdir (downloads user)]), op.Within user := by
    split <;> simp [FileOp.Within, hdown]
  cases hs : stripSlash params.up with
  | error f => exact hops
  | ok loc =>
    obtain ⟨hin, habs⟩ := h loc hacc hs
    have hloc : place user.home.toList <+: resolve user.home.toList loc.toList := by
      rw [prefix_resolve_iff]
      split
      · rename_i hslash
        exact habs hslash
      · exact (user.inside_path_iff loc).1 hin
    have hzip : user.Inside (downloads user ++ sep ++ zip_name.text) :=
      Session.Inside.join user hdown (no_up_of_no_dots zip_name.plain)
    have hops' := List.forall_mem_append.2 ⟨hops, List.forall_mem_singleton.2
      (show (FileOp.existsSync (user.path loc)).Within user from hin)⟩
    have hzipped : (FileOp.zip (downloads user ++ sep ++ zip_name.text) user.home loc).Within user :=
      ⟨hzip, hloc⟩
    dsimp only
    split
    · exact hops'
    · split
      · have hall := List.forall_mem_append.2 ⟨hops', List.forall_mem_singleton.2 hzipped⟩
        exact hall
      · have hall := List.forall_mem_append.2 ⟨hops', List.forall_mem_cons.2 ⟨hzipped,
          List.forall_mem_singleton.2 (show (FileOp.existsSync _).Within user from hzip)⟩⟩
        exact hall

end Handlers

/-- What a request makes of its path stays in the home if the condition is met. -/
theorem PathRequest.Confined.inside {r : PathRequest} {user : Session} {up : JsVal}
    (h : r.Confined user up) (hacc : refused up = .ok false) (ht : r.text up = .ok t) :
    user.Inside (user.path t) := by
  rcases accepted_cases hacc with ⟨s, rfl⟩ | ⟨l, rfl⟩
  · exact user.inside_path_of_no_dots (text_no_dots hacc ht)
  · exact (user.inside_path_iff t).2 (h.joined l t rfl hacc ht)

theorem PathRequest.Confined.within {r : PathRequest} {user : Session} {params : FileParams}
    (h : r.Confined user params.up) (zip_name : ZipName) (files : Files) :
    (r.handle zip_name files user params).Within user := by
  cases r with
  | getFileInfo => exact within_getFileInfo fun hacc => h.inside hacc rfl
  | getFiles => exact within_getFiles fun hacc => h.inside hacc rfl
  | getFile => exact within_getFile fun hacc => h.inside hacc rfl
  | saveFile => exact within_saveFile fun hacc => h.inside hacc rfl
  | removeFileFolder => exact within_removeFileFolder fun hacc => h.inside hacc rfl
  | chFile => exact within_chFile fun t hacc ht => h.inside hacc ht
  | downloadFile =>
    apply within_downloadFile
    intro t hacc ht
    exact ⟨h.inside hacc ht, h.archived rfl t hacc ht⟩

/-- Files of which all or none are there, with no directories and no failures. -/
def constFiles (present : Bool) : Files where
  present := fun _ => present
  isDirectory := fun _ => false
  readdir := fun _ => none
  readFile := fun _ => none
  fails := fun _ => false
  cmdOut := fun _ => none
  names := fun _ _ h => by cases h

theorem guardedBy_accepted {up : JsVal} (h : refused up = .ok false) (body : Handled) :
    guardedBy up body = body := by
  rw [guardedBy, h]

theorem inside_of_location {user : Session} {up : JsVal} (h : user.Inside (user.location up))
    (hacc : refused up = .ok false) : user.Inside (user.path up.toKey) := by
  have heq : ∀ s, looseEq up s = true → up.toKey = s := by
    intro s hs
    rcases accepted_cases hacc with ⟨u, rfl⟩ | ⟨l, rfl⟩
    · exact of_decide_eq_true hs
    · exact of_decide_eq_true hs
  unfold Session.location at h
  split at h
  · rename_i hhome
    rcases Bool.or_eq_true_iff.1 hhome with hs | hs
    · rw [heq _ hs]
      exact user.inside_path_of_no_dots (by decide)
    · rw [heq _ hs]
      exact user.inside_path_of_no_dots (by decide)
  · exact h

/-- Every request looks at the path it makes. -/
theorem PathRequest.looks {r : PathRequest} {user : Session} {params : FileParams}
    (h : ∀ files, (r.handle zip_name files user params).Within user)
    (hacc : refused params.up = .ok false) (ht : r.text params.up = .ok t) :
    user.Inside (user.path t) := by
  have hnone := h (constFiles false)
  cases r with
  | getFileInfo =>
    cases ht
    rw [handle, JXPanel.getFileInfo, guardedBy_accepted hacc] at hnone
    exact inside_of_location (hnone _ List.mem_cons_self) hacc
  | getFiles =>
    cases ht
    rw [handle, JXPanel.getFiles, guardedBy_accepted hacc] at hnone
    exact inside_of_location (hnone _ List.mem_cons_self) hacc
  | getFile =>
    cases ht
    rw [handle, JXPanel.getFile, guardedBy_accepted hacc] at hnone
    exact hnone _ List.mem_cons_self
  | saveFile =>
    cases ht
    rw [handle, JXPanel.saveFile, guardedBy_accepted hacc] at hnone
    exact hnone _ List.mem_cons_self
  | removeFileFolder =>
    cases ht
    rw [handle, JXPanel.removeFileFolder, guardedBy_accepted hacc] at hnone
    exact hnone _ List.mem_cons_self
  | chFile =>
    have hs : stripSlash params.up = .ok t := ht
    rw [handle, JXPanel.chFile, guardedBy_accepted hacc, hs] at hnone
    exact hnone _ List.mem_cons_self
  | downloadFile =>
    have hs : stripSlash params.up = .ok t := ht
    rw [handle, JXPanel.downloadFile, guardedBy_accepted hacc, hs] at hnone
    exact hnone _ (List.mem_append_right _ List.mem_cons_self)

/-- What is there is archived. -/
theorem archives {user : Session} {params : FileParams}
    (h : ∀ files, (downloadFile zip_name files user params).Within user)
    (hacc : refused params.up = .ok false) (hs : stripSlash params.up = .ok t) :
    user.AbsoluteInside t := by
  intro hslash
  have hall := h (constFiles true)
  rw [downloadFile, guardedBy_accepted hacc, hs] at hall
  have hzip := hall (.zip (downloads user ++ sep ++ zip_name.text) user.home t)
    (List.mem_append_right _ List.mem_cons_self)
  have hloc := (prefix_resolve_iff t).1 hzip.2
  rwa [if_pos hslash] at hloc

/-- A request of the file manager keeps to the home, whatever the file system answers, just when
it is no array that climbs out of it and no archive of an absolute path elsewhere. -/
theorem within_home_iff (r : PathRequest) (zip_name : ZipName) (user : Session)
    (params : FileParams) :
    (∀ files, (r.handle zip_name files user params).Within user) ↔ r.Confined user params.up := by
  constructor
  · intro h
    refine ⟨?_, ?_⟩
    · intro l t _ hacc ht
      exact (user.inside_path_iff t).1 (PathRequest.looks h hacc ht)
    · intro hr t hacc ht
      subst hr
      exact archives h hacc ht
  · intro h files
    exact h.within zip_name files

/-- An array with one item passes the test that its item would not. -/
theorem array_leaves_home : ¬ ∀ (r : PathRequest) zip_name user params files,
    refused params.up = .ok false → (r.handle zip_name files user params).Within user := by
  intro h
  have hzip : ¬ ['.', '.'] <:+: "File_1.zip".toList := by decide
  have hout := h .getFile ⟨"File_1.zip", hzip⟩ ⟨"/srv/apps/U/ann", 1000, 1000⟩
    ⟨.arr [.str "../bob/index.js"], .undefined, .undefined, .undefined, .undefined, .undefined,
      .undefined, .undefined, .undefined⟩ (constFiles false) rfl
  have hin := hout (.stat "/srv/apps/U/ann/../bob/index.js") List.mem_cons_self
  have hno : ¬ Paths.Inside "/srv/apps/U/ann".toList "/srv/apps/U/ann/../bob/index.js".toList := by
    unfold Paths.Inside
    decide
  exact hno hin

end JXPanel

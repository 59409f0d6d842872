import JXPanel.Confinement

namespace JXPanel
set_option autoImplicit true

open Paths

/-- The paths that an operation creates, writes, or moves something from or to. -/
def FileOp.targets : FileOp → List String
  | .writeFile path _ => [path]
  | .mkdir path => [path]
  | .rename path pathTo => [path, pathTo]
  | _ => []

/-- Nothing is created, written or moved outside of the home. -/
def Session.Keeps (user : Session) (ops : List FileOp) : Prop :=
  ∀ op ∈ ops, ∀ path ∈ op.targets, user.Inside path

section Handlers
variable {files : Files} {user : Session} {params : FileParams}

theorem Session.keeps_append {l r : List FileOp} :
    user.Keeps (l ++ r) ↔ user.Keeps l ∧ user.Keeps r := List.forall_mem_append

theorem Session.keeps_idle {ops : List FileOp} (h : ∀ op ∈ ops, op.targets = []) :
    user.Keeps ops := by
  intro op hop path hpath
  rw [h op hop] at hpath
  exact absurd hpath List.not_mem_nil

theorem keeps_marked {ops : List FileOp} {path : String} :
    user.Keeps (marked files user ops path).1 ↔ user.Keeps ops := by
  rw [marked_ops, Session.keeps_append]
  apply and_iff_left
  apply Session.keeps_idle
  intro op hop
  rw [List.mem_singleton.1 hop]
  rfl

theorem keeps_guardedBy {up : JsVal} {body : Handled}
    (h : refused up = .ok false → user.Keeps body.1) : user.Keeps (guardedBy up body).1 := by
  unfold guardedBy
  cases hr : refused up with
  | error f => exact fun op hop => absurd hop List.not_mem_nil
  | ok b =>
    cases b with
    | true => exact fun op hop => absurd hop List.not_mem_nil
    | false => exact h hr

/-- An operation that comes after two looks at the disk, or does not come at all. -/
theorem keeps_after_looks {a b : String} {op : FileOp}
    (h : ∀ path ∈ op.targets, user.Inside path) :
    user.Keeps [.existsSync a, .existsSync b, op] := by
  intro o ho path hpath
  rcases List.mem_cons.1 ho with rfl | ho
  · exact absurd hpath List.not_mem_nil
  · rcases List.mem_cons.1 ho with rfl | ho
    · exact absurd hpath List.not_mem_nil
    · rw [List.mem_singleton.1 ho] at hpath
      exact h path hpath

theorem keeps_looks {ops : List FileOp} (h : ∀ op ∈ ops, ∃ path, op = .existsSync path) :
    user.Keeps ops := by
  apply Session.keeps_idle
  intro op hop
  obtain ⟨path, rfl⟩ := h op hop
  rfl

end Handlers

/-- A file system where a given path is there and nothing else. -/
def onlyFile (path : String) : Files := { constFiles false with present := fun p => decide (p = path) }

section Rename
variable {user : Session} {params : FileParams} {up down : String}

theorem keeps_rename (h : refused (.str up) = .ok false → user.Stays down) (files : Files) :
    user.Keeps
      (renameFileFolder files user { params with up := .str up, down := .str down }).1 := by
  apply keeps_guardedBy
  intro hacc
  have hop : ∀ path ∈ (FileOp.rename (user.path up) (user.path down)).targets,
      user.Inside path := by
    intro path hpath
    rcases List.mem_pair.1 hpath with rfl | rfl
    · exact user.inside_path_of_no_dots (accepted_str hacc).2
    · exact (user.inside_path_iff down).2 (h hacc)
  dsimp only [JsVal.toKey]
  split
  · exact keeps_looks (by simp)
  · split
    · exact keeps_looks (by simp)
    · split
      · exact keeps_after_looks hop
      · exact keeps_marked.2 (keeps_after_looks hop)

theorem stays_of_rename (hacc : refused (.str up) = .ok false)
    (h : ∀ files, user.Keeps
      (renameFileFolder files user { params with up := .str up, down := .str down }).1) :
    user.Stays down := by
  rw [← user.inside_path_iff]
  by_cases hsame : user.path down = user.path up
  · rw [hsame]
    exact user.inside_path_of_no_dots (accepted_str hacc).2
  · have hall := h (onlyFile (user.path up))
    have hops : (renameFileFolder (onlyFile (user.path up)) user
        { params with up := .str up, down := .str down }).1 =
        [.existsSync (user.path up), .existsSync (user.path down),
          .rename (user.path up) (user.path down)] ++
          [.chown user.uid user.gid (user.path down)] := by
      rw [renameFileFolder, guardedBy_accepted hacc, ← marked_ops (onlyFile (user.path up))]
      simp [onlyFile, JsVal.toKey, hsame, constFiles]
    rw [hops] at hall
    exact hall (.rename (user.path up) (user.path down)) (by simp) (user.path down)
      (List.mem_cons_of_mem _ List.mem_cons_self)

end Rename

section Add
variable {user : Session} {params : FileParams} {up name : String}

/-- The text that a new file's path has behind the home. -/
def addedText (up name : String) : String := withoutSlash up ++ sep ++ name

theorem path_append (user : Session) (a b : String) :
    user.path a ++ sep ++ b = user.path (a ++ sep ++ b) := by
  simp only [Session.path, String.append_assoc]

theorem keeps_add (h : refused (.str up) = .ok false → user.Stays (addedText up name))
    (files : Files) : user.Keeps
      (addFileFolder files user { params with up := .str up, name := .str name }).1 := by
  apply keeps_guardedBy
  intro hacc
  have hin := (user.inside_path_iff _).2 (h hacc)
  rw [addedText, ← path_append] at hin
  dsimp only [addFileUp, JsVal.toKey]
  generalize hop : (if looseEq params.opt "File" = true then _ else _ : FileOp) = op
  have htargets : ∀ path ∈ op.targets, user.Inside path := by
    intro path hpath
    rw [← hop] at hpath
    split at hpath
    · rw [List.mem_singleton.1 hpath]
      exact hin
    · rw [List.mem_singleton.1 hpath]
      exact hin
  split
  · exact keeps_looks (by simp)
  · split
    · exact keeps_looks (by simp)
    · split
      · exact keeps_after_looks htargets
      · exact keeps_marked.2 (keeps_after_looks htargets)

theorem stays_of_add (hacc : refused (.str up) = .ok false)
    (h : ∀ files, user.Keeps
      (addFileFolder files user { params with up := .str up, name := .str name }).1) :
    user.Stays (addedText up name) := by
  rw [← user.inside_path_iff, addedText, ← path_append]
  have hne : user.path (withoutSlash up) ++ sep ++ name ≠ user.path (withoutSlash up) := by
    intro he
    have hlen := congrArg String.length he
    have hsep : sep.length = 1 := rfl
    rw [String.length_append, String.length_append, hsep] at hlen
    omega
  have hall := h (onlyFile (user.path (withoutSlash up)))
  generalize hop : (if looseEq params.opt "File"
    then FileOp.writeFile (user.path (withoutSlash up) ++ sep ++ name) ""
    else .mkdir (user.path (withoutSlash up) ++ sep ++ name)) = op
  have hops : (addFileFolder (onlyFile (user.path (withoutSlash up))) user
      { params with up := .str up, name := .str name }).1 =
      [.existsSync (user.path (withoutSlash up)),
        .existsSync (user.path (withoutSlash up) ++ sep ++ name), op] ++
        [.chown user.uid user.gid (user.path (withoutSlash up) ++ sep ++ name)] := by
    rw [addFileFolder, guardedBy_accepted hacc,
      ← marked_ops (onlyFile (user.path (withoutSlash up)))]
    simp [onlyFile, JsVal.toKey, addFileUp, hne, hop, constFiles]
  rw [hops] at hall
  apply hall op (by simp)
  rw [← hop]
  split <;> exact List.mem_singleton.2 rfl

end Add

section Uploads
variable {user : Session}

/-- The text that an uploaded file's path has behind the home. -/
def uploadedText (target name : String) : String := uploadTarget target ++ sep ++ name

theorem keeps_upload_iff (target : String) (file : Upload) :
    (∀ files ops, saveUpload files user target file = .file ops → user.Keeps ops) ↔
      (uploadTarget target ∉ ["__addon__", "__logo__"] →
        user.Stays (uploadedText target file.name)) := by
  have hpath : user.path (uploadTarget target) ++ sep ++ file.name =
      user.path (uploadedText target file.name) := path_append _ _ _
  rw [← user.inside_path_iff, ← hpath]
  constructor
  · intro h hfree
    have haddon : uploadTarget target ≠ "__addon__" := fun he => hfree (by simp [he])
    have hlogo : uploadTarget target ≠ "__logo__" := fun he => hfree (by simp [he])
    have hall := h (constFiles false) _ (by rw [saveUpload, if_neg haddon, if_neg hlogo])
    exact hall _ (List.mem_cons_of_mem _ List.mem_cons_self) _ List.mem_cons_self
  · intro h files ops hops
    unfold saveUpload at hops
    split at hops
    · cases hops
    · split at hops
      · cases hops
      · rename_i haddon hlogo
        cases hops
        have hin := h (by simp [haddon, hlogo])
        intro op hop path hp
        rcases List.mem_pair.1 hop with rfl | rfl
        · exact absurd hp List.not_mem_nil
        · rw [List.mem_singleton.1 hp]
          exact hin

end Uploads

/-- A rename, a new file and an upload keep to the home, whatever the file system answers, just
when the text that they put behind it does. -/
theorem destinations_iff (user : Session) :
    (∀ (params : FileParams) (up down : String), (∀ files, user.Keeps
        (renameFileFolder files user { params with up := .str up, down := .str down }).1) ↔
      (refused (.str up) = .ok false → user.Stays down)) ∧
    (∀ (params : FileParams) (up name : String), (∀ files, user.Keeps
        (addFileFolder files user { params with up := .str up, name := .str name }).1) ↔
      (refused (.str up) = .ok false → user.Stays (addedText up name))) ∧
    (∀ target file, (∀ files ops, saveUpload files user target file = .file ops →
        user.Keeps ops) ↔
      (uploadTarget target ∉ ["__addon__", "__logo__"] →
        user.Stays (uploadedText target file.name))) := by
  refine ⟨?_, ?_, ?_⟩
  · intro params up down
    exact ⟨fun h hacc => stays_of_rename hacc h, keeps_rename⟩
  · intro params up name
    exact ⟨fun h hacc => stays_of_add hacc h, keeps_add⟩
  · exact keeps_upload_iff

/-- The new name of a file may lead anywhere. -/
theorem renamed_out_of_home : ¬ ∀ (user : Session) (params : FileParams) (up down : String) files,
    user.Keeps (renameFileFolder files user
      { params with up := .str up, down := .str down }).1 := by
  intro h
  have hout := h ⟨"/srv/apps/U/ann", 1000, 1000⟩
    ⟨.undefined, .undefined, .undefined, .undefined, .undefined, .undefined, .undefined,
      .undefined, .undefined⟩ "cron" "../../../../etc/cron.d/ann"
    (onlyFile "/srv/apps/U/ann/cron")
  have hin := hout (.rename "/srv/apps/U/ann/cron" "/srv/apps/U/ann/../../../../etc/cron.d/ann")
    (by decide) "/srv/apps/U/ann/../../../../etc/cron.d/ann" (List.mem_cons_of_mem _ List.mem_cons_self)
  have hno : ¬ Paths.Inside "/srv/apps/U/ann".toList
      "/srv/apps/U/ann/../../../../etc/cron.d/ann".toList := by
    unfold Paths.Inside
    decide
  exact hno hin

end JXPanel

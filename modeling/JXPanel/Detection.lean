import JXPanel.Stops

namespace JXPanel
set_option autoImplicit true

open Json

/-- A name that the forms store. -/
structure AcceptedName where
  name : String
  accepted : StoredName name.toList

/-- A process of the monitor's report. -/
structure MonitoredApp (ν : Type) where
  pid : ν
  app : AcceptedName

/-- The folder of the spawners, with the slash behind it. Nothing in it is written with a backslash. -/
structure SpawnerDir where
  dir : String
  absolute : dir.toList.head? = some '/'
  plain : ∀ c ∈ dir.toList, escaped c = [c]

variable (N : Numbers ν)

namespace SpawnerDir
variable (s : SpawnerDir)

def path (domain_name : String) : String := appGetSpawnerPath s.dir domain_name

def entry (a : MonitoredApp ν) : Value ν := .obj [("pid", .num a.pid), ("path", .str (s.path a.app.name))]

/-- What the monitor answers. -/
def report (apps : List (MonitoredApp ν)) : String := String.ofList (write N (.arr (apps.map s.entry)))

end SpawnerDir

/-- The test of `appStartStop`. -/
def onlineBefore (answer : Except String String) (spawner : String) : Bool :=
  match answer with
  | .error _ => false
  | .ok ret => decide (ret ≠ "") && containsText ret spawner

/-- The test of `getStatus`. The session has the monitor's answer, if there was one. -/
def statusOnline (json : Option String) (spawner : String) : Bool := containsText (json.getD "") spawner

/-- An entry of the answer: its process is killed if its path is among the spawners. -/
def restartPid (spawners : List String) (info : Value ν) : Option (Option (Value ν)) :=
  match field info "path" with
  | some (.str path) => if path ∈ spawners then some (field info "pid") else none
  | _ => none

/-- The loop of `appRestartMultiple` over what has been parsed. -/
def restartPids (ret : Value ν) (spawners : List String) : List (Option (Value ν)) :=
  match ret with
  | .arr l => l.filterMap (restartPid spawners)
  | _ => []

/-- The processes that `appRestartMultiple` kills. Where the answer cannot be parsed there are none. -/
def appRestartMultiple (answer : Except String String) (spawners : List String) : List (Option (Value ν)) :=
  match answer with
  | .error _ => []
  | .ok body =>
    match read N body.toList with
    | none => []
    | some ret => restartPids ret spawners

namespace SpawnerDir
variable (s : SpawnerDir)

/-- The spawner of a domain is listed. -/
def Listed (apps : List (MonitoredApp ν)) (domain_name : String) : Prop :=
  ∃ a ∈ apps, s.path a.app.name = s.path domain_name

/-- All tests say that an application is running just when its own spawner is listed. -/
structure DetectionExact (apps : List (MonitoredApp ν)) (domain_name : String) : Prop where
  started : onlineBefore (.ok (s.report N apps)) (s.path domain_name) = true ↔ s.Listed apps domain_name
  stopped : containsText (s.report N apps) (s.path domain_name) = true ↔ s.Listed apps domain_name
  shown : statusOnline (some (s.report N apps)) (s.path domain_name) = true ↔ s.Listed apps domain_name
  restarted : appRestartMultiple N (.ok (s.report N apps)) [s.path domain_name] ≠ [] ↔ s.Listed apps domain_name

/-- What is written for the path of `n` has the path of `d` in it: what is written for `n` goes on as `d`
and its extension do, or `n` has a slash and the path of `d` stands further on. -/
def Shows (n d : String) : Prop :=
  d.toList ++ ".jx".toList <+: n.toList.flatMap escaped ++ ".jx".toList ∨
    ('/' ∈ n.toList ∧ (s.path d).toList <:+: ((s.path n).toList.flatMap escaped).tail)

end SpawnerDir

/-- No character of a name is written with a backslash, and none is a slash. -/
def Ordinary (n : String) : Prop := ∀ c ∈ n.toList, escaped c = [c] ∧ c ≠ '/'

section Infix

/-- What begins with a slash does not begin in a text without one. -/
theorem infix_behind {p pre : List Char} (h : p.head? = some '/') (hpre : '/' ∉ pre) (rest : List Char) :
    p <:+: pre ++ rest ↔ p <:+: rest := by
  induction pre with
  | nil => rw [List.nil_append]
  | cons c pre ih =>
    have hno : ¬p <+: c :: (pre ++ rest) := by
      rintro ⟨t, ht⟩
      cases p with
      | nil => cases h
      | cons d p =>
        cases h
        exact hpre (List.head_eq_of_cons_eq ht ▸ List.mem_cons_self)
    rw [List.cons_append, List.infix_cons_iff, or_iff_right hno]
    exact ih fun hin => hpre (List.mem_cons_of_mem c hin)

/-- Behind a quote there is no brace. -/
def QuoteApart (a b : Char) : Prop := a = '"' → b ≠ '}'

/-- A text in which no brace follows a quote does not go beyond the end of a string that ends an object. -/
theorem infix_before {p : List Char} (h : p.IsChain QuoteApart) (hlast : p.getLast? = some 'x') (e rest : List Char) :
    p <:+: e ++ '"' :: '}' :: rest ↔ p <:+: e ∨ p <:+: '"' :: '}' :: rest := by
  rw [List.infix_append_iff, ← or_assoc]
  refine or_iff_left_of_imp ?_
  rintro ⟨p₁, p₂, rfl, h₁, t, ht⟩
  cases p₂ with
  | nil =>
    rw [List.append_nil]
    exact .inl h₁.isInfix
  | cons c p₂ =>
    obtain ⟨rfl, hrest⟩ := List.cons_eq_cons.1 ht
    cases p₂ with
    | nil =>
      rw [List.getLast?_append] at hlast
      cases hlast
    | cons d p₂ =>
      obtain ⟨rfl, -⟩ := List.cons_eq_cons.1 hrest
      have hin : ['"', '}'] <:+: p₁ ++ '"' :: '}' :: p₂ := ⟨p₁, p₂, by simp⟩
      have hpair := h.infix hin
      rw [List.isChain_pair] at hpair
      exact absurd rfl (hpair rfl)

theorem chain_of_no_quote {l : List Char} (h : '"' ∉ l) : l.IsChain QuoteApart := by
  induction l with
  | nil => exact .nil
  | cons c l ih =>
    have hl := ih fun hin => h (List.mem_cons_of_mem c hin)
    rw [List.isChain_cons]
    refine ⟨fun d _ hc => ?_, hl⟩
    exact absurd (hc ▸ List.mem_cons_self) h

end Infix

section Names

theorem mem_label {l : List Char} (h : isLabel l = true ∨ isTopLevel l = true) {c : Char} (hc : c ∈ l) :
    c ≠ '"' ∧ c ≠ '}' := by
  have hno : ∀ d, d.isAlphanum = false → d ≠ '-' → c ≠ d := by
    intro d hd hdash heq
    subst heq
    rcases h with h | h
    · rw [isLabel, Bool.and_eq_true] at h
      have hall := List.all_eq_true.1 h.2 c hc
      rw [hd, Bool.false_or] at hall
      exact hdash (of_decide_eq_true hall)
    · rw [isTopLevel, Bool.and_eq_true] at h
      have hall := List.all_eq_true.1 h.2 c hc
      rw [Char.isAlphanum, hall] at hd
      cases hd
  exact ⟨hno '"' (by decide) (by decide), hno '}' (by decide) (by decide)⟩

theorem StoredName.head {cs : List Char} (h : StoredName cs) (rest : List Char) :
    ∃ c t, cs ++ rest = c :: t ∧ c ≠ '}' := by
  cases h with
  | topLevel _ ht =>
    cases cs with
    | nil => cases ht
    | cons a t => exact ⟨a, _, rfl, (mem_label (.inr ht) List.mem_cons_self).2⟩
  | dot cs hcs => exact ⟨'.', _, rfl, by decide⟩
  | label l c cs hl hc hcs =>
    cases l with
    | nil => cases hl
    | cons a l => exact ⟨a, _, rfl, (mem_label (.inl hl) List.mem_cons_self).2⟩

/-- Between the labels of a name anything may stand, but no label begins with a brace. -/
theorem StoredName.chain {cs : List Char} (h : StoredName cs) {rest : List Char} (hrest : '"' ∉ rest) :
    (cs ++ rest).IsChain QuoteApart := by
  induction h with
  | topLevel t ht =>
    apply chain_of_no_quote
    intro hin
    rcases List.mem_append.1 hin with hq | hq
    · exact (mem_label (.inr ht) hq).1 rfl
    · exact hrest hq
  | dot cs hcs ih =>
    obtain ⟨d, t, heq, -⟩ := hcs.head rest
    rw [List.cons_append]
    rw [heq] at ih ⊢
    refine List.isChain_cons_cons.2 ⟨fun hdot => ?_, ih⟩
    cases hdot
  | label l c cs hl hc hcs ih =>
    have hfree : '"' ∉ l := fun hq => (mem_label (.inl hl) hq).1 rfl
    obtain ⟨d, t, heq, hd⟩ := hcs.head rest
    rw [List.append_assoc, List.cons_append]
    rw [heq] at ih ⊢
    rw [List.isChain_append]
    refine ⟨chain_of_no_quote hfree, List.isChain_cons_cons.2 ⟨fun _ => hd, ih⟩, fun a ha b _ hquote => ?_⟩
    exact absurd (hquote ▸ List.mem_of_getLast? ha) hfree

/-- A slash is written only for a slash. -/
theorem slash_of_mem_escaped {c : Char} (h : '/' ∈ escaped c) : c = '/' := by
  rw [escaped] at h
  cases hs : shortOf c with
  | some d =>
    have hshort : shortOf c ≠ some '/' := by
      intro heq
      have hread := (ofShort_of_shortOf heq).2
      cases hread
      cases heq
    rw [hs] at h
    have hd : '/' = '\\' ∨ '/' = d := by simpa using h
    rcases hd with hd | rfl
    · cases hd
    · exact absurd hs hshort
  | none =>
    rw [hs] at h
    dsimp only at h
    split at h
    · have hdigit : ∀ k < 16, '/' ≠ Nat.digitChar k := by decide
      simp [hdigit (c.toNat / 16) (by omega), hdigit (c.toNat % 16) (by omega)] at h
    · exact (List.mem_singleton.1 h).symm

theorem written_plain {l : List Char} (h : ∀ c ∈ l, escaped c = [c]) : l.flatMap escaped = l := by
  induction l with
  | nil => rfl
  | cons c l ih =>
    rw [List.flatMap_cons, h c List.mem_cons_self, ih fun d hd => h d (List.mem_cons_of_mem c hd)]
    rfl

theorem slash_of_mem_flatMap {l : List Char} (h : '/' ∈ l.flatMap escaped) : '/' ∈ l := by
  obtain ⟨c, hc, hin⟩ := List.mem_flatMap.1 h
  exact slash_of_mem_escaped hin ▸ hc

end Names

namespace SpawnerDir
variable (s : SpawnerDir) {N}

theorem toList_path (n : String) : (s.path n).toList = s.dir.toList ++ ("spawner_".toList ++ (n.toList ++ ".jx".toList)) := by
  simp [path, appGetSpawnerPath]

/-- What is written for a path. -/
theorem written_path (n : String) : (s.path n).toList.flatMap escaped =
    s.dir.toList ++ ("spawner_".toList ++ (n.toList.flatMap escaped ++ ".jx".toList)) := by
  have hspawner : "spawner_".toList.flatMap escaped = "spawner_".toList := by decide
  have hjx : ".jx".toList.flatMap escaped = ".jx".toList := by decide
  rw [toList_path, List.flatMap_append, List.flatMap_append, List.flatMap_append, written_plain s.plain, hspawner, hjx]

theorem path_inj {n d : String} : s.path n = s.path d ↔ n = d := by
  constructor
  · intro h
    have hlist := congrArg String.toList h
    rw [toList_path, toList_path, List.append_cancel_left_eq, List.append_cancel_left_eq,
      List.append_cancel_right_eq] at hlist
    exact String.toList_inj.1 hlist
  · rintro rfl
    rfl

theorem listed_iff {apps : List (MonitoredApp ν)} {d : String} :
    s.Listed apps d ↔ ∃ a ∈ apps, a.app.name = d := by
  refine exists_congr fun a => and_congr_right fun _ => s.path_inj

/-- What stands in front of a path. -/
def beforePath (N : Numbers ν) (pid : ν) : List Char :=
  '{' :: (quoted "pid" ++ ':' :: (N.text pid ++ ',' :: (quoted "path" ++ [':', '"'])))

theorem write_entry (a : MonitoredApp ν) : write N (s.entry a) =
    beforePath N a.pid ++ ((s.path a.app.name).toList.flatMap escaped ++ ['"', '}']) := by
  simp [entry, beforePath, write, writeFields, comma, quoted]

theorem no_slash_before (pid : ν) : '/' ∉ beforePath N pid := by
  have hnum : '/' ∉ N.text pid := by
    intro hin
    have hnumeric := N.numeric pid _ hin
    revert hnumeric
    decide
  have hpid : '/' ∉ quoted "pid" := by decide
  have hpath : '/' ∉ quoted "path" := by decide
  simp [beforePath, hnum, hpid, hpath]

/-- A path that begins with a slash, has no brace behind a quote and ends with an extension stands in the
report just when it stands in what is written for one of the listed paths. -/
theorem infix_report (apps : List (MonitoredApp ν)) {p : List Char} (hhead : p.head? = some '/')
    (hlast : p.getLast? = some 'x') (hchain : p.IsChain QuoteApart) :
    p <:+: (s.report N apps).toList ↔ ∃ a ∈ apps, p <:+: (s.path a.app.name).toList.flatMap escaped := by
  have hnil : ¬p <:+: [] := by
    intro h
    rw [List.eq_nil_of_infix_nil h] at hhead
    cases hhead
  have hcomma : ∀ first, '/' ∉ comma first := by decide
  have hitems : ∀ (first : Bool) (l : List (MonitoredApp ν)), p <:+: writeItems N first (l.map s.entry) ↔
      ∃ a ∈ l, p <:+: (s.path a.app.name).toList.flatMap escaped := by
    intro first l
    induction l generalizing first with
    | nil =>
      have hclose : p <:+: [']'] ++ [] ↔ p <:+: [] := infix_behind hhead (by decide) []
      exact iff_of_false (fun h => hnil (hclose.1 h)) (by rintro ⟨a, ha, -⟩; cases ha)
    | cons a l ih =>
      have hrest : p <:+: ['"', '}'] ++ writeItems N false (l.map s.entry) ↔ _ :=
        infix_behind hhead (by decide) _
      have hwhole : writeItems N first ((a :: l).map s.entry) = comma first ++ (beforePath N a.pid ++
          ((s.path a.app.name).toList.flatMap escaped ++ '"' :: '}' :: writeItems N false (l.map s.entry))) := by
        rw [List.map_cons, writeItems, write_entry]
        simp
      rw [hwhole, infix_behind hhead (hcomma first), infix_behind hhead (no_slash_before a.pid),
        infix_before hchain hlast, List.exists_mem_cons_iff, ← ih false]
      exact or_congr_right hrest
  have hopen : p <:+: ['['] ++ writeItems N true (apps.map s.entry) ↔ _ := infix_behind hhead (by decide) _
  rw [report, String.toList_ofList, write]
  exact hopen.trans (hitems true apps)

theorem head_path (d : String) : (s.path d).toList.head? = some '/' := by
  rw [toList_path, List.head?_append, s.absolute]
  rfl

theorem last_path (d : String) : (s.path d).toList.getLast? = some 'x' := by
  rw [toList_path, ← List.append_assoc, ← List.append_assoc, List.getLast?_append]
  rfl

theorem no_quote_dir : '"' ∉ s.dir.toList := by
  intro h
  have hplain := s.plain '"' h
  cases hplain

theorem chain_path (d : AcceptedName) : (s.path d.name).toList.IsChain QuoteApart := by
  rw [toList_path, ← List.append_assoc]
  have hfront : '"' ∉ s.dir.toList ++ "spawner_".toList := by
    rw [List.mem_append, not_or]
    exact ⟨s.no_quote_dir, by decide⟩
  rw [List.isChain_append]
  refine ⟨chain_of_no_quote hfront, d.accepted.chain (by decide), fun a ha b _ hquote => ?_⟩
  exact absurd (hquote ▸ List.mem_of_getLast? ha) hfront

/-- What is written for a path begins with another path, or has it further on if there is a slash in its name. -/
theorem infix_written {n d : String} :
    (s.path d).toList <:+: (s.path n).toList.flatMap escaped ↔ s.Shows n d := by
  obtain ⟨t, ht⟩ : ∃ t, s.dir.toList = '/' :: t := by
    have habs := s.absolute
    cases hdir : s.dir.toList with
    | nil =>
      rw [hdir] at habs
      cases habs
    | cons c t =>
      rw [hdir] at habs
      exact ⟨t, by rw [Option.some.inj habs]⟩
  have hbegins : (s.path d).toList <+: (s.path n).toList.flatMap escaped ↔
      d.toList ++ ".jx".toList <+: n.toList.flatMap escaped ++ ".jx".toList := by
    rw [written_path, toList_path, List.prefix_append_right_inj, List.prefix_append_right_inj]
  have hcons : (s.path n).toList.flatMap escaped = '/' :: ((s.path n).toList.flatMap escaped).tail := by
    rw [written_path, ht]
    rfl
  rw [Shows, ← hbegins]
  rw [hcons, List.infix_cons_iff, ← hcons]
  refine or_congr_right ⟨fun h => ⟨?_, h⟩, And.right⟩
  by_contra hno
  have hcount := h.sublist.count_le '/'
  have htotal : ((s.path n).toList.flatMap escaped).count '/' = s.dir.toList.count '/' := by
    have hspawner : "spawner_".toList.count '/' = 0 := by decide
    have hjx : ".jx".toList.count '/' = 0 := by decide
    have hname : (n.toList.flatMap escaped).count '/' = 0 := List.count_eq_zero.2 fun h => hno (slash_of_mem_flatMap h)
    rw [written_path, List.count_append, List.count_append, List.count_append, hspawner, hname, hjx]
    rfl
  have hown : s.dir.toList.count '/' ≤ (s.path d).toList.count '/' := by
    rw [toList_path, List.count_append]
    exact Nat.le_add_right _ _
  rw [hcons, List.count_cons_self] at htotal
  omega

theorem contains_iff (apps : List (MonitoredApp ν)) (d : AcceptedName) :
    containsText (s.report N apps) (s.path d.name) = true ↔ ∃ a ∈ apps, s.Shows a.app.name d.name := by
  rw [containsText, decide_eq_true_iff, s.infix_report apps (s.head_path _) (s.last_path _) (s.chain_path d)]
  exact exists_congr fun a => and_congr_right fun _ => s.infix_written

theorem report_ne (apps : List (MonitoredApp ν)) : s.report N apps ≠ "" := by
  intro h
  have hlist := congrArg String.toList h
  rw [report, String.toList_ofList, write] at hlist
  cases hlist

theorem proper_report (apps : List (MonitoredApp ν)) : (Value.arr (apps.map s.entry)).Proper := by
  apply Value.Proper.arr
  intro v hv
  obtain ⟨a, -, rfl⟩ := List.mem_map.1 hv
  have hkeys : ["pid", "path"].Nodup := by decide
  refine .obj _ hkeys fun f hf => ?_
  rcases List.mem_cons.1 hf with rfl | hf
  · exact .num a.pid
  · rw [List.mem_singleton.1 hf]
    exact .str _

theorem restartPid_entry (a : MonitoredApp ν) (d : String) : restartPid [s.path d] (s.entry a) = none ↔
    ¬s.path a.app.name = s.path d := by
  have hentry : restartPid [s.path d] (s.entry a) =
      if s.path a.app.name ∈ [s.path d] then some (some (.num a.pid)) else none := rfl
  rw [hentry]
  split
  · rename_i hin
    exact iff_of_false (by rintro ⟨⟩) (not_not_intro (List.mem_singleton.1 hin))
  · rename_i hout
    exact iff_of_true rfl (mt List.mem_singleton.2 hout)

theorem read_report (apps : List (MonitoredApp ν)) :
    read N (s.report N apps).toList = some (.arr (apps.map s.entry)) := by
  rw [report, String.toList_ofList]
  exact read_write N (s.proper_report apps)

/-- The answer lists the spawners of the applications. -/
theorem listedPaths_report (apps : List (MonitoredApp ν)) :
    listedPaths N (s.report N apps) = apps.map fun a => s.path a.app.name := by
  rw [listedPaths, read_report]
  dsimp only
  rw [List.filterMap_map]
  exact congrFun (List.filterMap_eq_map (f := fun a : MonitoredApp ν => s.path a.app.name)) apps

/-- Restarting looks at the paths that have been parsed. -/
theorem restarted_iff (apps : List (MonitoredApp ν)) (d : String) :
    appRestartMultiple N (.ok (s.report N apps)) [s.path d] ≠ [] ↔ s.Listed apps d := by
  have hnone : (apps.map s.entry).filterMap (restartPid [s.path d]) = [] ↔ ¬s.Listed apps d := by
    rw [List.filterMap_eq_nil_iff, List.forall_mem_map, Listed]
    push Not
    exact forall₂_congr fun a _ => s.restartPid_entry a d
  rw [appRestartMultiple, read_report]
  exact (not_congr hnone).trans not_not

/-- All tests on the text are the same. -/
theorem detectionExact_of (apps : List (MonitoredApp ν)) (d : String) :
    s.DetectionExact N apps d ↔ (containsText (s.report N apps) (s.path d) = true ↔ s.Listed apps d) := by
  have hbefore : onlineBefore (.ok (s.report N apps)) (s.path d) = containsText (s.report N apps) (s.path d) := by
    rw [onlineBefore, decide_eq_true (s.report_ne apps), Bool.true_and]
  constructor
  · intro h
    exact h.stopped
  · intro h
    exact ⟨by rwa [hbefore], h, h, s.restarted_iff apps d⟩

theorem shows_ordinary {n d : String} (h : Ordinary n) :
    s.Shows n d ↔ (d ++ ".jx").toList <+: (n ++ ".jx").toList := by
  have hslash : '/' ∉ n.toList := fun hin => (h '/' hin).2 rfl
  rw [Shows, written_plain fun c hc => (h c hc).1, String.toList_append, String.toList_append]
  exact or_iff_left fun hlater => hslash hlater.1

/-- Detection is exact just when the domain is listed and a listed name shows it, or it is not listed and
none does. An ordinary name shows itself, and the names that it goes on from with the extension. -/
theorem detectionExact_iff (apps : List (MonitoredApp ν)) (d : AcceptedName) :
    (s.DetectionExact N apps d.name ↔
      (∃ a ∈ apps, a.app.name = d.name) ∧ (∃ a ∈ apps, s.Shows a.app.name d.name) ∨
        ∀ a ∈ apps, a.app.name ≠ d.name ∧ ¬s.Shows a.app.name d.name) ∧
    ((∀ a ∈ apps, Ordinary a.app.name) → (s.DetectionExact N apps d.name ↔
      (∃ a ∈ apps, a.app.name = d.name) ∨
        ∀ a ∈ apps, ¬(d.name ++ ".jx").toList <+: (a.app.name ++ ".jx").toList)) := by
  have hsplit : (∀ a ∈ apps, a.app.name ≠ d.name ∧ ¬s.Shows a.app.name d.name) ↔
      (¬∃ a ∈ apps, a.app.name = d.name) ∧ ¬∃ a ∈ apps, s.Shows a.app.name d.name := by
    push Not
    exact forall₂_and
  have hexact : s.DetectionExact N apps d.name ↔
      ((∃ a ∈ apps, a.app.name = d.name) ↔ ∃ a ∈ apps, s.Shows a.app.name d.name) := by
    rw [detectionExact_of, contains_iff, listed_iff]
    exact iff_comm
  constructor
  · rw [hexact, hsplit]
    exact iff_iff_and_or_not_and_not
  · intro hordinary
    have hshows : (∃ a ∈ apps, s.Shows a.app.name d.name) ↔
        ∃ a ∈ apps, (d.name ++ ".jx").toList <+: (a.app.name ++ ".jx").toList :=
      exists_congr fun a => and_congr_right fun ha => s.shows_ordinary (hordinary a ha)
    rw [hexact, hshows]
    constructor
    · intro h
      rw [or_iff_not_imp_left, h]
      intro hnone a ha hprefix
      exact hnone ⟨a, ha, hprefix⟩
    · rintro (⟨a, ha, heq⟩ | hnone)
      · exact iff_of_true ⟨a, ha, heq⟩ ⟨a, ha, heq ▸ List.prefix_rfl⟩
      · refine iff_of_false ?_ (by rintro ⟨a, ha, h⟩; exact hnone a ha h)
        rintro ⟨a, ha, heq⟩
        exact hnone a ha (heq ▸ List.prefix_rfl)

end SpawnerDir

def panelDir : SpawnerDir where
  dir := "/srv/server_apps/app_configs/"
  absolute := by decide
  plain := by simp [escaped, shortOf]

/-- A listed name that goes on as another does with its extension. -/
theorem longer_name_shows : ¬∀ (s : SpawnerDir) (apps : List (MonitoredApp Int)) (d : AcceptedName),
    s.DetectionExact integers apps d.name := by
  intro h
  let long : AcceptedName := ⟨"abc.com.jxc.org",
    .label "abc".toList '.' _ (by decide) (by decide) (.label "com".toList '.' _ (by decide) (by decide)
      (.label "jxc".toList '.' _ (by decide) (by decide) (.topLevel "org".toList (by decide))))⟩
  have hall := (h panelDir [⟨1, long⟩] ⟨"abc.com", checkDomain_sample.stored⟩).stopped
  have hcontains : containsText (panelDir.report integers [⟨1, long⟩]) (panelDir.path "abc.com") = true := by
    decide +kernel
  obtain ⟨a, ha, hpath⟩ := hall.1 hcontains
  rw [List.mem_singleton.1 ha, panelDir.path_inj] at hpath
  exact absurd hpath (by decide)

end JXPanel

import JXPanel.Hosts

namespace JXPanel
set_option autoImplicit true

/-- What a host name may hold. -/
def isHostChar (c : Char) : Bool := c.isAlphanum || decide (c = '-') || decide (c = '.')

/-- The characters that end or change a word of a command, a component of a path or a directive. -/
def metacharacters : List Char :=
  Shell.specials ++ ['/', '*', '?', '[', ']', '\x7b', '\x7d', '~', '!', '%', '=', ':', ',', '\r']

/-- A name between dots, of which none begins or ends with a hyphen and the last one is of letters. -/
structure IsHostName (cs : List Char) : Prop where
  chars : ∀ c ∈ cs, isHostChar c = true
  labels : ∀ l ∈ cs.splitOn '.', l ≠ [] ∧ l.head? ≠ some '-' ∧ l.getLast? ≠ some '-'
  top : ∃ t, (cs.splitOn '.').getLast? = some t ∧ isTopLevel t = true
  safe : ∀ c ∈ cs, c ∉ metacharacters

/-- A part that has a letter or digit at either end. -/
def Edged (l : List Char) : Prop := (∃ c, l.head? = some c ∧ c.isAlphanum = true) ∧ ∃ c, l.getLast? = some c ∧ c.isAlphanum = true

theorem Edged.label {l : List Char} (h : Edged l) : l ≠ [] ∧ l.head? ≠ some '-' ∧ l.getLast? ≠ some '-' := by
  obtain ⟨⟨c, hc, hc'⟩, d, hd, hd'⟩ := h
  refine ⟨?_, ?_, ?_⟩
  · rintro rfl
    cases hc
  · intro he
    rw [hc] at he
    cases he
    exact absurd hc' (by decide)
  · intro he
    rw [hd] at he
    cases he
    exact absurd hd' (by decide)

theorem edged_of_isLabel {l : List Char} (h : isLabel l = true) : Edged l ∧ '.' ∉ l := by
  simp only [isLabel, Bool.and_eq_true, decide_eq_true_iff, Option.any_eq_true] at h
  obtain ⟨⟨⟨-, hfirst⟩, hlast⟩, hall⟩ := h
  refine ⟨⟨hfirst, hlast⟩, fun hm => ?_⟩
  have hdot := List.all_eq_true.1 hall _ hm
  exact absurd hdot (by decide)

theorem edged_of_isTopLevel {l : List Char} (h : isTopLevel l = true) : Edged l ∧ '.' ∉ l := by
  rw [isTopLevel, Bool.and_eq_true, decide_eq_true_iff] at h
  obtain ⟨hlength, hall⟩ := h
  have halnum : ∀ c ∈ l, c.isAlphanum = true := by
    intro c hc
    rw [Char.isAlphanum, List.all_eq_true.1 hall c hc, Bool.true_or]
  have hne : l ≠ [] := by
    rintro rfl
    simp at hlength
  refine ⟨⟨⟨l.head hne, List.head?_eq_some_head hne, halnum _ (List.head_mem hne)⟩,
    l.getLast hne, List.getLast?_eq_some_getLast hne, halnum _ (List.getLast_mem hne)⟩, fun hm => ?_⟩
  have hdot := List.all_eq_true.1 hall _ hm
  exact absurd hdot (by decide)

theorem splitOn_append {a : α} [DecidableEq α] {l t : List α} (h : a ∉ l) {x : List α} {xs : List (List α)}
    (ht : t.splitOn a = x :: xs) : (l ++ t).splitOn a = (l ++ x) :: xs := by
  induction l with
  | nil => exact ht
  | cons b l ih =>
    rw [List.mem_cons, not_or] at h
    have hb : (b == a) = false := beq_eq_false_iff_ne.2 (Ne.symm h.1)
    rw [List.cons_append, List.splitOn_cons_eq_if_modifyHead, hb, ih h.2]
    rfl

/-- A label before parts that have letters or digits at their ends is another one, or, where the
character behind it is no dot, makes the first of them longer. -/
theorem edged_behind {l t : List Char} (hl : isLabel l = true) (c : Char) (ht : ∀ x ∈ t.splitOn '.', Edged x) :
    ∀ x ∈ (l ++ c :: t).splitOn '.', Edged x := by
  obtain ⟨hedged, hdot⟩ := edged_of_isLabel hl
  by_cases hc : c = '.'
  · rw [hc, List.splitOn_append_cons_self_of_not_mem hdot]
    intro x hx
    rcases List.mem_cons.1 hx with rfl | hx
    · exact hedged
    · exact ht x hx
  · obtain ⟨y, ys, hsplit⟩ := List.exists_cons_of_ne_nil (List.splitOn_ne_nil '.' t)
    rw [hsplit] at ht
    have hbehind : (c :: t).splitOn '.' = (c :: y) :: ys := by
      rw [← List.singleton_append, splitOn_append (fun hm => hc (List.mem_singleton.1 hm).symm) hsplit]
      rfl
    rw [splitOn_append hdot hbehind]
    intro x hx
    rcases List.mem_cons.1 hx with rfl | hx
    · obtain ⟨⟨d, hd, hd'⟩, -⟩ := hedged
      obtain ⟨-, e, he, he'⟩ := ht y List.mem_cons_self
      refine ⟨⟨d, ?_, hd'⟩, e, ?_, he'⟩
      · rw [List.head?_append, hd]
        rfl
      · rw [List.getLast?_append, List.getLast?_cons, he]
        rfl
    · exact ht x (List.mem_cons_of_mem _ hx)

theorem HostLabels.edged {cs : List Char} (h : HostLabels isTopLevel cs) : ∀ x ∈ cs.splitOn '.', Edged x := by
  induction h with
  | last l c t hl hc ht =>
    obtain ⟨hedged, hdot⟩ := edged_of_isTopLevel ht
    apply edged_behind hl
    rw [List.splitOn_eq_singleton hdot]
    intro x hx
    rw [List.mem_singleton.1 hx]
    exact hedged
  | more l c cs hl hc hcs ih => exact edged_behind hl c ih

theorem HostLabels.length {close : List Char → Bool} {cs : List Char} (h : HostLabels close cs) : 4 ≤ cs.length := by
  have hlabel : ∀ (l : List Char) (c : Char) (t : List Char), isLabel l = true → 4 ≤ (l ++ c :: t).length := by
    intro l c t hl
    simp only [isLabel, Bool.and_eq_true, decide_eq_true_iff] at hl
    rw [List.length_append, List.length_cons]
    omega
  cases h with
  | last l c t hl hc ht => exact hlabel l c t hl
  | more l c cs hl hc hcs => exact hlabel l c cs hl

/-- A name that is accepted is too long for a top level of its own. -/
theorem HostLabels.not_topLevel {cs : List Char} (h : HostLabels isTopLevel cs) : isTopLevel cs = false := by
  have hlong : ∀ (l : List Char) (c : Char) (t : List Char), isLabel l = true → 1 ≤ t.length →
      isTopLevel (l ++ c :: t) = false := by
    intro l c t hl ht
    simp only [isLabel, Bool.and_eq_true, decide_eq_true_iff] at hl
    rw [isTopLevel, Bool.and_eq_false_iff]
    refine .inl (decide_eq_false fun hlength => ?_)
    rw [List.length_append, List.length_cons] at hlength
    omega
  cases h with
  | last l c t hl hc ht =>
    rw [isTopLevel, Bool.and_eq_true, decide_eq_true_iff] at ht
    exact hlong l c t hl (by omega)
  | more l c cs hl hc hcs =>
    have hlength := hcs.length
    exact hlong l c cs hl (by omega)

theorem last_dot {cs : List Char} (h : '.' ∈ cs) : ∃ pre t, cs = pre ++ '.' :: t ∧ '.' ∉ t := by
  obtain ⟨as, bs, heq, hnot⟩ := List.eq_append_cons_of_mem (List.mem_reverse.2 h)
  refine ⟨bs.reverse, as.reverse, ?_, fun hm => hnot (List.mem_reverse.1 hm)⟩
  rw [← cs.reverse_reverse, heq]
  simp

theorem getLast?_splitOn {pre t : List Char} (h : '.' ∉ t) : ((pre ++ '.' :: t).splitOn '.').getLast? = some t := by
  rw [List.splitOn_append_cons_self, List.splitOn_eq_singleton h, List.getLast?_concat]

theorem not_metacharacter {c : Char} (h : isHostChar c = true) : c ∉ metacharacters := by
  have hall : metacharacters.all (fun d => !isHostChar d) = true := by decide
  intro hm
  have hno := List.all_eq_true.1 hall c hm
  rw [h] at hno
  cases hno

/-- An accepted name is a host name when its characters are those of one and there is a top level
behind its last dot. What stands between its labels always has letters or digits on both sides. -/
theorem host_name_iff {val : String} (h : checkDomain val = true) :
    IsHostName val.toList ↔ (∀ c ∈ val.toList, isHostChar c = true) ∧
      ∃ pre t, val.toList = pre ++ '.' :: t ∧ isTopLevel t = true := by
  have hlabels := checkDomain_language.1 h
  constructor
  · intro hhost
    refine ⟨hhost.chars, ?_⟩
    obtain ⟨t, hlast, htop⟩ := hhost.top
    by_cases hdot : '.' ∈ val.toList
    · obtain ⟨pre, u, heq, hu⟩ := last_dot hdot
      rw [heq, getLast?_splitOn hu] at hlast
      cases hlast
      exact ⟨pre, t, heq, htop⟩
    · rw [List.splitOn_eq_singleton hdot, List.getLast?_singleton] at hlast
      rw [← Option.some.inj hlast, hlabels.not_topLevel] at htop
      cases htop
  · rintro ⟨hchars, pre, t, heq, htop⟩
    refine ⟨hchars, fun l hl => (hlabels.edged l hl).label, ⟨t, ?_, htop⟩, fun c hc => not_metacharacter (hchars c hc)⟩
    rw [heq]
    exact getLast?_splitOn (edged_of_isTopLevel htop).2

theorem host_name_sample : IsHostName "www.my-site.com".toList := by
  refine (host_name_iff (by decide +kernel)).2 ⟨List.all_eq_true.1 (by decide), "www.my-site".toList,
    "com".toList, by decide, by decide⟩

/-- The separator may be a semicolon. -/
theorem accepted_name_ends_command : ¬∀ val : String, checkDomain val = true → IsHostName val.toList := by
  intro h
  have hhost := h "abc;reboot.com" (by decide +kernel)
  exact absurd (hhost.safe ';' (by decide)) (by decide)

/-- Labels with one character between. -/
inductive Labels : List Char → Prop
  | one (l : List Char) (hl : isLabel l = true) : Labels l
  | more (l : List Char) (c : Char) (cs : List Char) (hl : isLabel l = true) (hc : isAny c = true)
      (hcs : Labels cs) : Labels (l ++ c :: cs)

/-- Labels with one character behind each. -/
def LabelsClosed (cs : List Char) : Prop := ∃ l c, cs = l ++ [c] ∧ Labels l ∧ isAny c = true

theorem hostLabels_isEmpty {cs : List Char} : HostLabels List.isEmpty cs ↔ LabelsClosed cs := by
  constructor
  · intro h
    induction h with
    | last l c t hl hc ht =>
      rw [List.isEmpty_iff.1 ht]
      exact ⟨l, c, rfl, .one l hl, hc⟩
    | more l c cs hl hc hcs ih =>
      obtain ⟨l', c', rfl, hl', hc'⟩ := ih
      exact ⟨l ++ c :: l', c', by simp, .more l c l' hl hc hl', hc'⟩
  · rintro ⟨l, c, rfl, hl, hc⟩
    induction hl with
    | one l hl => exact .last l c [] hl hc rfl
    | more l c' cs hl hc' hcs ih =>
      rw [List.append_assoc]
      exact .more l c' _ hl hc' ih

/-- Where the first of two texts has none of the character that the other one is cut at, the cuts
are the same or the second one is behind the first. -/
theorem append_cons_eq {l t v m : List Char} {c d : Char} (h : l ++ c :: t = v ++ d :: m) (hd : d ∉ l) :
    (v = l ∧ c = d ∧ t = m) ∨ ∃ w, v = l ++ c :: w ∧ t = w ++ d :: m := by
  rcases List.append_eq_append_iff.1 h with ⟨w, hv, hm⟩ | ⟨w, hl, hm⟩
  · cases w with
    | nil =>
      rw [List.nil_append, List.cons.injEq] at hm
      rw [List.append_nil] at hv
      exact .inl ⟨hv, hm.1, hm.2⟩
    | cons b w =>
      rw [List.cons_append, List.cons.injEq] at hm
      obtain ⟨rfl, ht⟩ := hm
      exact .inr ⟨w, hv, ht⟩
  · cases w with
    | nil =>
      rw [List.nil_append, List.cons.injEq] at hm
      rw [List.append_nil] at hl
      exact .inl ⟨hl.symm, hm.1.symm, hm.2.symm⟩
    | cons b w =>
      rw [List.cons_append, List.cons.injEq] at hm
      obtain ⟨rfl, -⟩ := hm
      rw [hl] at hd
      exact absurd (List.mem_append_right _ List.mem_cons_self) hd

/-- A dot in an accepted name comes behind labels. -/
theorem HostLabels.labels {v m : List Char} (h : HostLabels isTopLevel (v ++ '.' :: m)) : Labels v := by
  generalize hw : v ++ '.' :: m = w at h
  induction h generalizing v with
  | last l c t hl hc ht =>
    rcases append_cons_eq hw.symm (edged_of_isLabel hl).2 with ⟨rfl, -, -⟩ | ⟨u, -, rfl⟩
    · exact .one v hl
    · exact absurd (List.mem_append_right _ List.mem_cons_self) (edged_of_isTopLevel ht).2
  | more l c cs hl hc hcs ih =>
    rcases append_cons_eq hw.symm (edged_of_isLabel hl).2 with ⟨rfl, -, -⟩ | ⟨u, rfl, hcs'⟩
    · exact .one v hl
    · exact .more l c u hl hc (ih hcs'.symm)

/-- No other character is lowered to a dot. -/
theorem dot_of_toLower {c : Char} (h : c.toLower = '.') : c = '.' := by
  unfold Char.toLower at h
  split at h
  · next hc =>
    have hlow : 65 ≤ c.val.toNat := hc.1
    have hval : (c.val + ('a'.val - 'A'.val)).toNat = 46 := congrArg (fun d : Char => d.val.toNat) h
    have hshift : ('a'.val - 'A'.val).toNat = 32 := by decide
    have hhigh : c.val.toNat ≤ 90 := hc.2
    rw [UInt32.toNat_add, hshift] at hval
    omega
  · exact h

/-- What is left of labels without their `www.` are labels, or just the end. -/
theorem HostLabels.withoutWww {close : List Char → Bool} {val : String} (hlabels : HostLabels close val.toList) :
    close (withoutWww val).toList = true ∨ HostLabels close (withoutWww val).toList := by
  unfold JXPanel.withoutWww
  split
  · next hwww =>
    rw [String.toList_ofList]
    generalize val.toList = cs at hlabels hwww
    have hletters : "www.".toList = ['w', 'w', 'w', '.'] := by decide
    rw [hletters] at hwww
    obtain ⟨x, l₁, hx, -, h₁⟩ := List.map_eq_cons_iff.1 hwww
    obtain ⟨y, l₂, rfl, -, h₂⟩ := List.map_eq_cons_iff.1 h₁
    obtain ⟨z, l₃, rfl, -, h₃⟩ := List.map_eq_cons_iff.1 h₂
    obtain ⟨d, l₄, rfl, hd, h₄⟩ := List.map_eq_cons_iff.1 h₃
    have hcut : cs = [x, y, z] ++ '.' :: cs.drop 4 := by
      rw [List.map_eq_nil_iff.1 h₄, dot_of_toLower hd] at hx
      exact (List.take_append_drop 4 cs).symm.trans (congrArg (· ++ cs.drop 4) hx)
    generalize cs.drop 4 = m at hcut
    rw [hcut] at hlabels
    have hshort : ∀ (l w : List Char) (c : Char), isLabel l = true → [x, y, z] ≠ l ++ c :: w := by
      intro l w c hl he
      simp only [isLabel, Bool.and_eq_true, decide_eq_true_iff] at hl
      have hlength : 3 = l.length + (w.length + 1) := by
        have hsame := congrArg List.length he
        rwa [List.length_append, List.length_cons] at hsame
      omega
    generalize hw : [x, y, z] ++ '.' :: m = w at hlabels
    cases hlabels with
    | last l c t hl hc ht =>
      rcases append_cons_eq hw.symm (edged_of_isLabel hl).2 with ⟨-, -, rfl⟩ | ⟨u, he, -⟩
      · exact .inl ht
      · exact absurd he (hshort l u c hl)
    | more l c t hl hc ht =>
      rcases append_cons_eq hw.symm (edged_of_isLabel hl).2 with ⟨-, -, rfl⟩ | ⟨u, he, -⟩
      · exact .inr ht
      · exact absurd he (hshort l u c hl)
  · exact .inr hlabels

/-- A domain that is stored for an accepted name is one itself, or just a top level. -/
theorem stored_of_checkDomain {val : String} (h : checkDomain val = true) :
    isTopLevel (withoutWww val).toList = true ∨ HostLabels isTopLevel (withoutWww val).toList :=
  (checkDomain_language.1 h).withoutWww

/-- Below a stored domain the names are those of labels. -/
theorem hostLabels_below_iff {v m : List Char} (hm : isTopLevel m = true ∨ HostLabels isTopLevel m) :
    HostLabels isTopLevel (v ++ '.' :: m) ↔ Labels v := by
  constructor
  · exact HostLabels.labels
  · intro h
    induction h with
    | one l hl =>
      rcases hm with hm | hm
      · exact .last l '.' m hl (by decide) hm
      · exact .more l '.' m hl (by decide) hm
    | more l c cs hl hc hcs ih =>
      rw [List.append_assoc]
      exact .more l c _ hl hc ih

/-- Labels in front of what makes a stored name of each of their ends. -/
theorem HostLabels.storedName {close : List Char → Bool} {cs rest : List Char} (h : HostLabels close cs)
    (hend : ∀ t, close t = true → StoredName (t ++ rest)) : StoredName (cs ++ rest) := by
  induction h with
  | last l c t hl hc ht =>
    rw [List.append_assoc]
    exact .label l c _ hl hc (hend t ht)
  | more l c cs hl hc hcs ih =>
    rw [List.append_assoc]
    exact .label l c _ hl hc ih

namespace Store
variable {s : Store} {m val : String}

theorem storedName_of_acceptDomain {d : String} (h : s.acceptDomain val = some d) : StoredName d.toList := by
  unfold acceptDomain at h
  split at h
  · cases h
  · next hcheck =>
    rw [Bool.not_eq_true', Bool.not_eq_false] at hcheck
    dsimp only at h
    split at h
    · cases h
    · split at h
      · cases h
      · obtain rfl := Option.some.inj h
        rcases stored_of_checkDomain hcheck with ht | hlabels
        · exact .topLevel _ ht
        · have hend : ∀ t : List Char, isTopLevel t = true → StoredName (t ++ []) := by
            intro t ht
            rw [List.append_nil]
            exact .topLevel t ht
          have hstored := hlabels.storedName hend
          rwa [List.append_nil] at hstored

/-- The name of a subdomain is labels in front of a dot and the domain that it is below. -/
theorem storedName_of_acceptSubDomain {d : String} (hm : StoredName m.toList) (h : s.acceptSubDomain m val = some d) :
    StoredName d.toList := by
  unfold acceptSubDomain at h
  split at h
  · cases h
  · next hcheck =>
    rw [Bool.not_eq_true', Bool.not_eq_false] at hcheck
    dsimp only at h
    split at h
    · cases h
    · split at h
      · cases h
      · split at h
        · cases h
        · split at h
          · cases h
          · obtain rfl := Option.some.inj h
            have hjoin : (withoutWww val ++ "." ++ m).toList = (withoutWww val).toList ++ '.' :: m.toList := by
              simp
            have hdot : ∀ t : List Char, t.isEmpty = true → StoredName (t ++ '.' :: m.toList) := by
              intro t ht
              rw [List.isEmpty_iff.1 ht]
              exact .dot _ hm
            rw [hjoin]
            rcases (checkSubDomain_language.1 hcheck).withoutWww with hempty | hlabels
            · exact hdot _ hempty
            · exact hlabels.storedName hdot

/-- A subdomain is added below a domain that is stored. -/
def BelowStored (s : Store) : HostRequest → Prop
  | .addSubDomain _ main_domain _ _ _ => main_domain ∈ s.domains.keys
  | _ => True

theorem storedNames_of_reached {start : Store} (hstart : start.domains.keys = [])
    (h : Runs.Reached host start BelowStored s) : ∀ d ∈ s.domains.keys, StoredName d.toList := by
  apply h.keeps (P := fun s => ∀ d ∈ s.domains.keys, StoredName d.toList)
  · intro d hd
    rw [hstart] at hd
    cases hd
  · intro t c ht hc d hd
    rcases keys_host hd with hnew | hold
    · cases c with
      | addDomain username val json home => exact storedName_of_acceptDomain (Option.mem_def.1 hnew)
      | addSubDomain username main_domain val json home =>
        exact storedName_of_acceptSubDomain (ht main_domain hc) (Option.mem_def.1 hnew)
      | deleteDomain name => cases hnew
      | deleteUser name => cases hnew
      | deletePlan name => cases hnew
    · exact ht d hold

/-- The two forms agree on a name below a domain: the labels it consists of go on to its end just
when they go on to the character before. A prefix `www.` in other letters is cut off. -/
def SubDomainAgrees (s : Store) (m val : String) : Prop :=
  if withoutWww val = val then Labels val.toList ↔ LabelsClosed val.toList
  else ¬Labels val.toList ∧ (LabelsClosed val.toList → (s.getDomain? (withoutWww val ++ "." ++ m)).isSome)

theorem checkDomain_below_iff (hm : ∃ name, checkDomain name = true ∧ withoutWww name = m) :
    checkDomain (val ++ "." ++ m) = true ↔ Labels val.toList := by
  obtain ⟨name, hname, rfl⟩ := hm
  have hjoin : (val ++ "." ++ withoutWww name).toList = val.toList ++ '.' :: (withoutWww name).toList := by
    simp
  rw [checkDomain_language, hjoin]
  exact hostLabels_below_iff (stored_of_checkDomain hname)

theorem withoutWww_suffix (val : String) : (withoutWww val).toList <:+ val.toList := by
  unfold withoutWww
  split
  · rw [String.toList_ofList]
    exact List.drop_suffix 4 _
  · exact List.suffix_refl _

/-- The form for a domain below a stored one admits the names that the other form admits, and
stores them, exactly where their labels agree. -/
theorem subDomain_agrees_iff (s : Store) (m val : String) (hm : ∃ name, checkDomain name = true ∧ withoutWww name = m)
    (hend : ¬m.toList <:+ val.toList) (hnew : s.getDomain? (val ++ "." ++ m) = none) (hports : s.portsSuffice = true) :
    s.acceptSubDomain m val = (if checkDomain (val ++ "." ++ m) then some (val ++ "." ++ m) else none) ↔
      s.SubDomainAgrees m val := by
  have hne : m ≠ "" := by
    rintro rfl
    exact hend (List.nil_suffix)
  have hwww : (withoutWww val).toList <:+ val.toList := withoutWww_suffix val
  have hend' : m.toList.isSuffixOf (withoutWww val).toList = false := by
    rw [Bool.eq_false_iff]
    intro h
    exact hend ((List.isSuffixOf_iff_suffix.1 h).trans hwww)
  have hclosed : checkSubDomain val = true ↔ LabelsClosed val.toList :=
    checkSubDomain_language.trans hostLabels_isEmpty
  have hbelow : checkDomain (val ++ "." ++ m) = true ↔ Labels val.toList := checkDomain_below_iff hm
  unfold acceptSubDomain SubDomainAgrees
  dsimp only
  rw [if_neg hne, hend', if_neg Bool.false_ne_true, hports, ← hbelow, ← hclosed]
  by_cases hw : withoutWww val = val
  · rw [if_pos hw, hw, hnew]
    cases checkSubDomain val <;> cases checkDomain (val ++ "." ++ m) <;> simp
  · have hjoin : withoutWww val ++ "." ++ m ≠ val ++ "." ++ m := by
      intro he
      have hlist := congrArg String.toList he
      rw [String.toList_append, String.toList_append, String.toList_append, String.toList_append] at hlist
      exact hw (String.toList_inj.1 (List.append_cancel_right (List.append_cancel_right hlist)))
    rw [if_neg hw]
    cases checkSubDomain val <;> cases checkDomain (val ++ "." ++ m) <;>
      cases (s.getDomain? (withoutWww val ++ "." ++ m)).isSome <;> simp [hjoin]

/-- A domain that a name is added below. -/
def hostingBob : Store := hosting.host (.addDomain "bob" "bob.org" .empty (.ok none))

theorem subDomain_agrees_sample : hostingBob.acceptSubDomain "bob.org" "blog" = some "blog.bob.org" := by
  have hagrees : hostingBob.SubDomainAgrees "bob.org" "blog" := by
    unfold SubDomainAgrees
    rw [if_pos (by decide)]
    exact iff_of_true (.one _ (by decide)) ⟨"blo".toList, 'g', by decide, .one _ (by decide), by decide⟩
  rw [(subDomain_agrees_iff hostingBob "bob.org" "blog" ⟨"bob.org", by decide +kernel, by decide +kernel⟩ (by decide)
    (Option.isNone_iff_eq_none.1 (by decide +kernel)) (by decide +kernel)).2 hagrees]
  decide +kernel

/-- A label of three letters is not taken below a domain, though the whole name is a domain. -/
theorem short_label_refused : ¬∀ (s : Store) (m val : String), (∃ name, checkDomain name = true ∧ withoutWww name = m) →
    ¬"www.".toList <+: val.toList → ¬m.toList <:+ val.toList → s.getDomain? (val ++ "." ++ m) = none →
    s.portsSuffice = true →
    s.acceptSubDomain m val = if checkDomain (val ++ "." ++ m) then some (val ++ "." ++ m) else none := by
  intro h
  have hagree := h hosting "bob.org" "ftp" ⟨"bob.org", by decide +kernel, by decide +kernel⟩ (by decide) (by decide)
    rfl (by decide +kernel)
  exact absurd hagree (by decide +kernel)

end Store
end JXPanel

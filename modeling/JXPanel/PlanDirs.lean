import JXPanel.Homes

namespace JXPanel
set_option autoImplicit true

/-- The six-bit groups of the bytes of a name. -/
def sextetsOf (name : String) : List Nat := Base64.sextets (Base64.utf8 name.toList)

/-- The groups that are written with letters and digits. The others are written `+` and `/`. -/
def letterGroups (name : String) : List Nat := (sextetsOf name).filter fun n => decide (n < 62)

/-- No letter or digit is written behind a slash. -/
def Unbroken (name : String) : Prop := ∀ n ∈ (sextetsOf name).dropWhile (fun n => decide (n ≠ 63)), 62 ≤ n

instance (name : String) : Decidable (Unbroken name) := List.decidableBAll ..

section Names
variable {name a b : String}

theorem encodedName_eq (name : String) :
    encodedName name = ((sextetsOf name).filter fun n => decide (n ≠ 62)).map Base64.digit := by
  have hplus : ∀ n ∈ sextetsOf name, decide (Base64.digit n ≠ '+') = decide (n ≠ 62) := by
    intro n hn
    have hinj := Base64.digit_inj (Base64.lt_of_mem_sextets hn) (show 62 < 64 by decide)
    exact decide_eq_decide.2 (not_congr hinj)
  have hsplit : encodedName name = ((Base64.encode (Base64.utf8 name.toList)).filter
      fun c => decide (c ≠ '=')).filter fun c => decide (c ≠ '+') := by
    rw [List.filter_filter]
    apply List.filter_congr
    intro c _
    exact Bool.and_comm _ _
  rw [hsplit, Base64.encode_without_pad, List.filter_map]
  exact congrArg (List.map Base64.digit) (List.filter_congr hplus)

theorem slash_iff {n : Nat} (hn : n < 64) : Base64.digit n = '/' ↔ n = 63 := Base64.digit_inj hn (show 63 < 64 by decide)

/-- What is written behind the first slash. -/
theorem dropWhile_encodedName (name : String) : (encodedName name).dropWhile (fun c => decide (c ≠ '/')) =
    (((sextetsOf name).dropWhile fun n => decide (n ≠ 63)).filter fun n => decide (n ≠ 62)).map Base64.digit := by
  have hall : ∀ n ∈ sextetsOf name, n < 64 := fun n hn => Base64.lt_of_mem_sextets hn
  rw [encodedName_eq]
  generalize sextetsOf name = l at hall
  induction l with
  | nil => rfl
  | cons n l ih =>
    have hrest := ih fun m hm => hall m (List.mem_cons_of_mem n hm)
    have hn := hall n List.mem_cons_self
    by_cases hplus : n = 62
    · subst hplus
      exact hrest
    · by_cases hslash : n = 63
      · subst hslash
        rfl
      · have hkept : Base64.digit n ≠ '/' := fun he => hslash ((slash_iff hn).1 he)
        rw [List.filter_cons_of_pos (by simpa using hplus), List.map_cons,
          List.dropWhile_cons_of_pos (by simpa using hkept), List.dropWhile_cons_of_pos (by simpa using hslash)]
        exact hrest

theorem unbroken_iff : Unbroken name ↔ ∀ c ∈ (encodedName name).dropWhile (fun c => decide (c ≠ '/')), c = '/' := by
  have hlt : ∀ n ∈ (sextetsOf name).dropWhile (fun n => decide (n ≠ 63)), n < 64 := fun n hn =>
    Base64.lt_of_mem_sextets ((List.dropWhile_suffix _).subset hn)
  rw [dropWhile_encodedName, List.forall_mem_map]
  constructor
  · intro h n hn
    obtain ⟨hn, hne⟩ := List.mem_filter.1 hn
    have hge := h n hn
    have hsmall := hlt n hn
    have hplus : n ≠ 62 := of_decide_eq_true hne
    have he : n = 63 := by omega
    rw [he]
    rfl
  · intro h n hn
    by_cases hplus : n = 62
    · omega
    · have he := (slash_iff (hlt n hn)).1 (h n (List.mem_filter.2 ⟨hn, decide_eq_true hplus⟩))
      omega

theorem letters_encodedName (name : String) :
    (encodedName name).filter (fun c => decide (c ≠ '/')) = (letterGroups name).map Base64.digit := by
  rw [encodedName_eq, List.filter_map, List.filter_filter]
  apply congrArg (List.map Base64.digit)
  apply List.filter_congr
  intro n hn
  have hlt : n < 64 := Base64.lt_of_mem_sextets hn
  have hslash : Base64.digit n ≠ '/' ↔ n ≠ 63 := not_congr (slash_iff hlt)
  change (decide (Base64.digit n ≠ '/') && decide (n ≠ 62)) = decide (n < 62)
  rw [← Bool.decide_and]
  apply decide_eq_decide.2
  rw [hslash]
  omega

theorem letters_eq_iff : (letterGroups a).map Base64.digit = (letterGroups b).map Base64.digit ↔
    letterGroups a = letterGroups b := by
  constructor
  · intro h
    apply Store.eq_of_map_eq h
    intro n hn m hm he
    have hsmall := of_decide_eq_true (List.mem_filter.1 hn).2
    have hsmall' := of_decide_eq_true (List.mem_filter.1 hm).2
    exact (Base64.digit_inj (by omega) (by omega)).1 he
  · exact congrArg _

/-- The directory of a plan is of one name just when no letter or digit is behind a slash. -/
theorem pieces_encodedName (hname : name ≠ "") :
    (∃ u, Paths.pieces (encodedName name) = [u]) ↔ Unbroken name := by
  obtain ⟨i, hi, hhead⟩ := Base64.head_encode_utf8 fun he => hname (String.toList_eq_nil_iff.1 he)
  have hne : Base64.digit i ≠ '/' := fun he => by
    have h63 := (slash_iff (by omega)).1 he
    omega
  obtain ⟨hpad, hplus⟩ := Base64.digit_of_lt hi
  have hfirst : (encodedName name).head? = some (Base64.digit i) := by
    obtain ⟨l, hl⟩ := List.head?_eq_some_iff.1 hhead
    rw [encodedName, hl, List.filter_cons_of_pos]
    · rfl
    · rw [decide_eq_true hpad, decide_eq_true hplus]
      rfl
  rw [Paths.pieces_one_iff ⟨_, hfirst, hne⟩, unbroken_iff]

theorem pieces_unbroken {u : List Char} (h : Paths.pieces (encodedName name) = [u]) :
    u = (letterGroups name).map Base64.digit := by
  have hflat := Paths.flatten_pieces (encodedName name)
  rw [h, letters_encodedName] at hflat
  simpa using hflat

end Names

namespace Store

def getPlanPath (s : Store) (apps_folder : List Char) (plan_name : String) : Js (List Char) :=
  s.getUserPath apps_folder plan_name ""

/-- Two plans have directories right below that of a third one, and neither holds the other. -/
def DirsApart (s : Store) (apps_folder : List Char) (parent a b : String) : Prop :=
  ∃ top left right, s.getPlanPath apps_folder parent = .ok top ∧ s.getPlanPath apps_folder a = .ok left ∧
    s.getPlanPath apps_folder b = .ok right ∧
      (∃ n, Paths.place left = Paths.place top ++ [n]) ∧ (∃ n, Paths.place right = Paths.place top ++ [n]) ∧
        ¬Paths.Inside left right ∧ ¬Paths.Inside right left

variable {s : Store} {apps_folder path : List Char} {p q a b : String} {arr : List String}

theorem place_plan (apps_folder : List Char) (arr : List String) :
    Paths.place (apps_folder ++ '/' :: (['/'].intercalate (arr.map encodedName) ++ '/' :: "".toList)) =
      Paths.place apps_folder ++ dirs arr := by
  have hplain : '.' ∉ ['/'].intercalate (arr.map encodedName) ++ '/' :: "".toList := by
    intro hm
    rcases List.mem_append.1 hm with hm | hm
    · apply dot_not_mem_joined _ _ hm
      intro n hn
      obtain ⟨p, -, rfl⟩ := List.mem_map.1 hn
      exact dot_not_mem_encodedName p
    · revert hm
      decide
  have hend : Paths.pieces "".toList = [] := Paths.pieces_nil
  rw [Paths.place_join, Paths.walk_pieces _ hplain, Paths.pieces_join, Paths.pieces_intercalate, hend,
    List.append_nil, List.flatMap_map]
  rfl

theorem getPlanPath_ok (h : s.getPlanPath apps_folder p = .ok path) :
    ∃ arr, s.pathPlans s.fuel p = .ok arr ∧ Paths.place path = Paths.place apps_folder ++ dirs arr := by
  obtain ⟨arr, harr, rfl⟩ := getUserPath_ok h
  exact ⟨arr, harr, place_plan apps_folder arr⟩

theorem dirs_concat (arr : List String) (p : String) : dirs (arr ++ [p]) = dirs arr ++ Paths.pieces (encodedName p) := by
  rw [dirs, List.flatMap_append, List.flatMap_singleton]
  rfl

/-- The directory of a plan below another is that one's with the names that its own amounts to. -/
theorem place_below {top : List Char} (hp : p ≠ "") (hq : s.getParentPlanName p = some q)
    (htop : s.getPlanPath apps_folder q = .ok top) (hpath : s.getPlanPath apps_folder p = .ok path) :
    Paths.place path = Paths.place top ++ Paths.pieces (encodedName p) := by
  obtain ⟨arr, harr, hplace⟩ := getPlanPath_ok hpath
  obtain ⟨above, habove, htopplace⟩ := getPlanPath_ok htop
  obtain ⟨above', habove', rfl⟩ := pathPlans_below harr hp hq
  cases Except.ok.inj (habove.symm.trans habove')
  rw [hplace, htopplace, dirs_concat, List.append_assoc]

theorem getPlanPath_total (h : s.Climbs) (apps_folder : List Char) (p : String) :
    ∃ path, s.getPlanPath apps_folder p = .ok path := by
  obtain ⟨arr, harr⟩ := pathPlans_ends (h.ends p)
  exact ⟨_, Collect.bind_ok.2 ⟨arr, harr, rfl⟩⟩

/-- A plan without a name has the apps folder for its directory, which is below no other. -/
theorem place_unnamed {top : List Char} (htop : s.getPlanPath apps_folder q = .ok top)
    (hpath : s.getPlanPath apps_folder "" = .ok path) (n : List Char) : Paths.place path ≠ Paths.place top ++ [n] := by
  obtain ⟨arr, harr, hplace⟩ := getPlanPath_ok hpath
  obtain ⟨above, -, htopplace⟩ := getPlanPath_ok htop
  have hempty : s.pathPlans s.fuel "" = .ok [] := by
    rw [Store.fuel, pathPlans, if_pos rfl]
  cases Except.ok.inj (hempty.symm.trans harr)
  intro he
  have hlength := congrArg List.length (hplace.symm.trans (he.trans (congrArg (· ++ [n]) htopplace)))
  simp [dirs] at hlength

/-- Where every climb ends, the directories of two plans of one parent are apart, each one name below
the parent's, just when both names are there, no letter or digit of either is written behind a slash,
and their letters and digits are different. -/
theorem planDirs_apart_iff (hc : s.Climbs) (apps_folder : List Char) (ha : s.getParentPlanName a = some q)
    (hb : s.getParentPlanName b = some q) : s.DirsApart apps_folder q a b ↔
      (a ≠ "" ∧ b ≠ "") ∧ (Unbroken a ∧ Unbroken b) ∧ letterGroups a ≠ letterGroups b := by
  constructor
  · rintro ⟨top, left, right, htop, hleft, hright, ⟨n, hn⟩, ⟨m, hm⟩, hapart, -⟩
    have hne : a ≠ "" := by
      rintro rfl
      exact place_unnamed htop hleft n hn
    have hne' : b ≠ "" := by
      rintro rfl
      exact place_unnamed htop hright m hm
    have hpieces : Paths.pieces (encodedName a) = [n] :=
      List.append_cancel_left ((place_below hne ha htop hleft).symm.trans hn)
    have hpieces' : Paths.pieces (encodedName b) = [m] :=
      List.append_cancel_left ((place_below hne' hb htop hright).symm.trans hm)
    refine ⟨⟨hne, hne'⟩, ⟨(pieces_encodedName hne).1 ⟨n, hpieces⟩, (pieces_encodedName hne').1 ⟨m, hpieces'⟩⟩, ?_⟩
    intro he
    apply hapart
    rw [Paths.Inside, hn, hm, pieces_unbroken hpieces, pieces_unbroken hpieces', he]
  · rintro ⟨⟨hne, hne'⟩, ⟨hwhole, hwhole'⟩, hletters⟩
    obtain ⟨top, htop⟩ := getPlanPath_total hc apps_folder q
    obtain ⟨left, hleft⟩ := getPlanPath_total hc apps_folder a
    obtain ⟨right, hright⟩ := getPlanPath_total hc apps_folder b
    obtain ⟨n, hn⟩ := (pieces_encodedName hne).2 hwhole
    obtain ⟨m, hm⟩ := (pieces_encodedName hne').2 hwhole'
    have hplace : Paths.place left = Paths.place top ++ [n] := by rw [place_below hne ha htop hleft, hn]
    have hplace' : Paths.place right = Paths.place top ++ [m] := by rw [place_below hne' hb htop hright, hm]
    have hnm : n ≠ m := by
      rw [pieces_unbroken hn, pieces_unbroken hm]
      exact fun he => hletters (letters_eq_iff.1 he)
    have hapart : ∀ {x y : List Char}, x ≠ y → ¬(Paths.place top ++ [x] <+: Paths.place top ++ [y]) := by
      intro x y hxy hpre
      rw [List.prefix_append_right_inj, List.cons_prefix_cons] at hpre
      exact hxy hpre.1
    refine ⟨top, left, right, htop, hleft, hright, ⟨n, hplace⟩, ⟨m, hplace'⟩, ?_, ?_⟩
    · rw [Paths.Inside, hplace, hplace']
      exact hapart hnm
    · rw [Paths.Inside, hplace, hplace']
      exact hapart hnm.symm

/-- Two plans whose names differ in what is written with a slash. -/
def slashCalls : List Call :=
  [.addUser unlimitedPlanName "ann" .empty, .addPlan (some "ann") "??" (planOpts 5 5),
    .addPlan (some "ann") "???" (planOpts 2 2)]

theorem climbs_slashCalls : (installed.run slashCalls).Climbs := by
  have hreached : Reached (fun _ c => Adds c) (installed.run slashCalls) := by
    apply Runs.Reached.run .start
    exact ⟨⟨by decide, by decide, plainOpts_empty⟩,
      ⟨by decide, by decide, plainOpts_planOpts 5 5, wholeLimits_planOpts 5 5⟩,
      ⟨by decide, by decide, plainOpts_planOpts 2 2, wholeLimits_planOpts 2 2⟩, trivial⟩
  exact (consistent_of_adds hreached).forest.climbs

theorem planDirs_apart_iff_sample : (installed.run slashCalls).DirsApart "/srv".toList unlimitedPlanName "??" "???" ↔
    ("??" ≠ "" ∧ "???" ≠ "") ∧ (Unbroken "??" ∧ Unbroken "???") ∧ letterGroups "??" ≠ letterGroups "???" :=
  planDirs_apart_iff climbs_slashCalls "/srv".toList (by decide +kernel) (by decide +kernel)

/-- The two plans have one directory. -/
theorem plans_share_dir : ¬∀ s : Store, s.Climbs → ∀ (apps_folder : List Char) (parent a b : String),
    a ∈ s.plans → b ∈ s.plans → a ≠ b → s.getParentPlanName a = some parent →
      s.getParentPlanName b = some parent → s.DirsApart apps_folder parent a b := by
  intro h
  obtain ⟨top, left, right, -, hleft, hright, -, -, hapart, -⟩ := h (installed.run slashCalls) climbs_slashCalls
    "/srv".toList unlimitedPlanName "??" "???" (by decide +kernel) (by decide +kernel) (by decide)
    (by decide +kernel) (by decide +kernel)
  have hpath : (installed.run slashCalls).getPlanPath "/srv".toList "??" = .ok "/srv/VW5saW1pdGVk/Pz8/".toList := by
    decide +kernel
  have hpath' : (installed.run slashCalls).getPlanPath "/srv".toList "???" = .ok "/srv/VW5saW1pdGVk/Pz8//".toList := by
    decide +kernel
  cases Except.ok.inj (hleft.symm.trans hpath)
  cases Except.ok.inj (hright.symm.trans hpath')
  have hsame : Paths.place "/srv/VW5saW1pdGVk/Pz8/".toList = Paths.place "/srv/VW5saW1pdGVk/Pz8//".toList := by
    decide +kernel
  exact hapart (by rw [Paths.Inside, hsame])

end Store
end JXPanel

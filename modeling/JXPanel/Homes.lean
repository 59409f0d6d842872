import JXPanel.Base64
import JXPanel.Effects
import JXPanel.Growth
import JXPanel.Paths

namespace JXPanel
set_option autoImplicit true

/-- The characters that the validator of user names lets pass. -/
def isUserNameChar (c : Char) : Bool := c.isAlphanum || decide (c = '_')

/-- A user name that the validator lets pass, of the required control of the form. -/
def userNameAccepted (val : String) : Bool :=
  val.toList.all isUserNameChar && decide (val.length ≤ 31) && decide (val ≠ "")

/-- The name of the directory of a plan: the base64 text without `=` and `+`. -/
def encodedName (subplan : String) : List Char :=
  (Base64.encode (Base64.utf8 subplan.toList)).filter fun c => decide (c ≠ '=') && decide (c ≠ '+')

example : encodedName "silver" = "c2lsdmVy".toList := rfl

theorem encodedName_subset (n : String) : encodedName n ⊆ Base64.alphabet := by
  intro c hc
  obtain ⟨hc, hkept⟩ := List.mem_filter.1 hc
  rcases List.mem_cons.1 (Base64.encode_subset _ hc) with rfl | hc
  · cases hkept
  · exact hc

theorem dot_not_mem_encodedName (n : String) : '.' ∉ encodedName n := by
  intro h
  have hdot := encodedName_subset n h
  revert hdot
  decide +kernel

theorem encodedName_ne_nil {n : String} (h : n ≠ "") : encodedName n ≠ [] := by
  have hchars : n.toList ≠ [] := fun he => h (String.toList_eq_nil_iff.1 he)
  obtain ⟨i, hi, hhead⟩ := Base64.head_encode_utf8 hchars
  obtain ⟨heq, hplus⟩ := Base64.digit_of_lt hi
  have hmem : Base64.digit i ∈ encodedName n := by
    apply List.mem_filter.2
    exact ⟨List.mem_of_mem_head? hhead, by simp [heq, hplus]⟩
  exact List.ne_nil_of_mem hmem

theorem userName_chars {u : String} (h : userNameAccepted u = true) :
    u.toList ≠ [] ∧ '.' ∉ u.toList ∧ '/' ∉ u.toList := by
  simp only [userNameAccepted, Bool.and_eq_true, decide_eq_true_iff] at h
  obtain ⟨⟨hchars, -⟩, hne⟩ := h
  have hall := List.all_eq_true.1 hchars
  refine ⟨fun hnil => hne (String.toList_eq_nil_iff.1 hnil), ?_, ?_⟩
  · intro hm
    exact absurd (hall _ hm) (by decide)
  · intro hm
    exact absurd (hall _ hm) (by decide)

namespace Store

def getUserPath (s : Store) (apps_folder : List Char) (plan_name user_name : String) :
    Js (List Char) := do
  let arr ← s.pathPlans s.fuel plan_name
  return apps_folder ++ '/' ::
    (['/'].intercalate (arr.map encodedName) ++ '/' :: user_name.toList)

/-- The names of directories that the encoded names of plans amount to. -/
def dirs (arr : List String) : List (List Char) :=
  arr.flatMap fun n => Paths.pieces (encodedName n)

variable {s : Store} {apps_folder path : List Char} {p q u : String} {arr l : List String}

theorem getUserPath_ok (h : s.getUserPath apps_folder p u = .ok path) :
    ∃ arr, s.pathPlans s.fuel p = .ok arr ∧ path = apps_folder ++ '/' ::
      (['/'].intercalate (arr.map encodedName) ++ '/' :: u.toList) := by
  obtain ⟨arr, harr, hpath⟩ := Collect.bind_ok.1 h
  exact ⟨arr, harr, (Except.ok.inj hpath).symm⟩

theorem dot_not_mem_joined (names : List (List Char)) (h : ∀ n ∈ names, '.' ∉ n) :
    '.' ∉ ['/'].intercalate names := by
  induction names with
  | nil => exact List.not_mem_nil
  | cons a names ih =>
    have ha := h a List.mem_cons_self
    have hrest := ih fun n hn => h n (List.mem_cons_of_mem _ hn)
    cases names with
    | nil =>
      rw [List.intercalate_singleton]
      exact ha
    | cons b names =>
      rw [List.intercalate_cons_cons, List.append_assoc]
      intro hm
      rcases List.mem_append.1 hm with hm | hm
      · exact ha hm
      · rcases List.mem_append.1 hm with hm | hm
        · cases List.mem_singleton.1 hm
        · exact hrest hm

/-- A home lies below the directories of the plans above, under the name of the user. -/
theorem place_home (apps_folder : List Char) (arr : List String)
    (hn : userNameAccepted u = true) :
    Paths.place (apps_folder ++ '/' ::
      (['/'].intercalate (arr.map encodedName) ++ '/' :: u.toList)) =
        Paths.place apps_folder ++ (dirs arr ++ [u.toList]) := by
  obtain ⟨hne, hdot, hslash⟩ := userName_chars hn
  have hplain : '.' ∉ ['/'].intercalate (arr.map encodedName) ++ '/' :: u.toList := by
    intro hm
    rcases List.mem_append.1 hm with hm | hm
    · apply dot_not_mem_joined _ _ hm
      intro n hn
      obtain ⟨q, -, rfl⟩ := List.mem_map.1 hn
      exact dot_not_mem_encodedName q
    · rcases List.mem_cons.1 hm with hm | hm
      · cases hm
      · exact hdot hm
  rw [Paths.place_join, Paths.walk_pieces _ hplain, Paths.pieces_join, Paths.pieces_intercalate,
    Paths.pieces_of_plain hne hslash, List.flatMap_map]
  rfl

/-- One that ends in another name comes before the end. -/
theorem prefix_of_last_ne {α : Type} {l r : List α} {a b : α} (hne : a ≠ b) :
    l ++ [a] <+: r ++ [b] ↔ l ++ [a] <+: r := by
  rw [List.prefix_concat_iff]
  constructor
  · rintro (he | h)
    · exact (hne (List.append_inj_right' he rfl |> List.singleton_inj.1)).elim
    · exact h
  · exact Or.inr

theorem eq_of_map_eq {α β : Type} {f : α → β} {l r : List α} (h : l.map f = r.map f)
    (hf : ∀ x ∈ l, ∀ y ∈ r, f x = f y → x = y) : l = r := by
  induction l generalizing r with
  | nil => exact (List.map_eq_nil_iff.1 h.symm).symm
  | cons x l ih =>
    obtain ⟨y, r, rfl, hy, hr⟩ := List.map_eq_cons_iff.1 h.symm
    rw [hf x List.mem_cons_self y List.mem_cons_self hy.symm]
    congr 1
    exact ih hr.symm fun a ha b hb =>
      hf a (List.mem_cons_of_mem _ ha) b (List.mem_cons_of_mem _ hb)

section Chains

theorem pathPlans_mono {n : Nat} (h : s.pathPlans n p = .ok arr) :
    s.pathPlans (n + 1) p = .ok arr := by
  induction n generalizing p arr with
  | zero =>
    rw [pathPlans] at h
    rw [pathPlans]
    split at h
    · rename_i hp
      rw [if_pos hp]
      exact h
    · cases h
  | succ n ih =>
    rw [pathPlans] at h
    rw [pathPlans]
    split at h
    · rename_i hp
      rw [if_pos hp]
      exact h
    · rename_i hp
      rw [if_neg hp]
      cases hq : s.getParentPlanName p with
      | none =>
        rw [hq] at h
        exact h
      | some q =>
        rw [hq] at h
        obtain ⟨above, habove, h⟩ := Collect.bind_ok.1 h
        exact Collect.bind_ok.2 ⟨above, ih habove, h⟩

/-- The loop ends where the climb does. -/
theorem pathPlans_ends {n : Nat} (he : Hierarchy.Ends s.parentUp n p) :
    ∃ arr, s.pathPlans n p = .ok arr := by
  induction n generalizing p with
  | zero => exact he.elim
  | succ n ih =>
    rw [pathPlans]
    split
    · exact ⟨[], rfl⟩
    · cases hq : s.getParentPlanName p with
      | none => exact ⟨[p], rfl⟩
      | some q =>
        obtain ⟨above, habove⟩ := ih (he q (getParentPlanName_up hq))
        exact ⟨above ++ [p], Collect.bind_ok.2 ⟨above, habove, rfl⟩⟩

/-- A part of the way down to a plan is the way down to the plan it ends at. -/
theorem pathPlans_prefix {n : Nat} (h : s.pathPlans n p = .ok arr) (hl : l ++ [q] <+: arr) :
    s.pathPlans n q = .ok (l ++ [q]) := by
  induction n generalizing p arr with
  | zero =>
    rw [pathPlans] at h
    split at h
    · cases h
      exact absurd (List.prefix_nil.1 hl) (by simp)
    · cases h
  | succ n ih =>
    have hp : p ≠ "" := by
      rintro rfl
      rw [pathPlans, if_pos rfl] at h
      cases h
      exact absurd (List.prefix_nil.1 hl) (by simp)
    have hself := h
    rw [pathPlans, if_neg hp] at h
    cases hq : s.getParentPlanName p with
    | none =>
      rw [hq] at h
      cases h
      rcases List.prefix_concat_iff.1 (show l ++ [q] <+: [] ++ [p] from hl) with he | hl
      · have hqp : q = p := List.singleton_inj.1 (List.append_inj_right' he rfl)
        rw [he, hqp]
        exact hself
      · exact absurd (List.prefix_nil.1 hl) (by simp)
    | some r =>
      rw [hq] at h
      obtain ⟨above, habove, h⟩ := Collect.bind_ok.1 h
      cases h
      rcases List.prefix_concat_iff.1 hl with he | hl
      · have hqp : q = p := List.singleton_inj.1 (List.append_inj_right' he rfl)
        rw [he, hqp]
        exact hself
      · exact pathPlans_mono (ih habove hl)

/-- The way down to a plan that is right below another is the way to that one and a step. -/
theorem pathPlans_below {n : Nat} (h : s.pathPlans n p = .ok arr) (hp : p ≠ "")
    (hq : s.getParentPlanName p = some q) : ∃ above, s.pathPlans n q = .ok above ∧
      arr = above ++ [p] := by
  cases n with
  | zero =>
    rw [pathPlans, if_neg hp] at h
    cases h
  | succ n =>
    rw [pathPlans, if_neg hp, hq] at h
    obtain ⟨above, habove, h⟩ := Collect.bind_ok.1 h
    exact ⟨above, pathPlans_mono habove, (Except.ok.inj h).symm⟩

theorem pathPlans_last {n : Nat} (h : s.pathPlans n p = .ok arr) (hp : p ≠ "") :
    ∃ above, arr = above ++ [p] := by
  cases n with
  | zero =>
    rw [pathPlans, if_neg hp] at h
    cases h
  | succ n =>
    rw [pathPlans, if_neg hp] at h
    cases hq : s.getParentPlanName p with
    | none =>
      rw [hq] at h
      exact ⟨[], (Except.ok.inj h).symm⟩
    | some q =>
      rw [hq] at h
      obtain ⟨above, -, h⟩ := Collect.bind_ok.1 h
      exact ⟨above, (Except.ok.inj h).symm⟩

theorem pathPlans_ne_empty {n : Nat} (h : s.pathPlans n p = .ok arr) (hq : q ∈ arr) : q ≠ "" := by
  induction n generalizing p arr with
  | zero =>
    rw [pathPlans] at h
    split at h
    · cases h
      cases hq
    · cases h
  | succ n ih =>
    rw [pathPlans] at h
    split at h
    · cases h
      cases hq
    · rename_i hp
      cases hr : s.getParentPlanName p with
      | none =>
        rw [hr] at h
        cases h
        rw [List.mem_singleton.1 hq]
        exact hp
      | some r =>
        rw [hr] at h
        obtain ⟨above, habove, h⟩ := Collect.bind_ok.1 h
        cases h
        rcases List.mem_append.1 hq with hq | hq
        · exact ih habove hq
        · rw [List.mem_singleton.1 hq]
          exact hp

end Chains

/-- No home is another one or a directory above it. -/
def HomesApart (s : Store) (apps_folder : List Char) : Prop :=
  ∀ a A b B path path', s.users.get? a = some A → s.users.get? b = some B → a ≠ b →
    s.getUserPath apps_folder A.plan a = .ok path → s.getUserPath apps_folder B.plan b = .ok path' →
      ¬Paths.Inside path path'

/-- The directories of the plans above a user. -/
def Way (s : Store) (u : String) (arr : List String) : Prop :=
  ∃ U, s.users.get? u = some U ∧ s.pathPlans s.fuel U.plan = .ok arr

/-- The names on the way down to a user's plan do not begin with those on the way to another
user's and that user's own. -/
def NamesApart (s : Store) : Prop :=
  ∀ a b arr arr', a ≠ b → s.Way a arr → s.Way b arr' → ¬(dirs arr ++ [a.toList] <+: dirs arr')

/-- The names of the directories of the plans above the users can be told apart and stay whole. -/
structure PlainNames (s : Store) : Prop where
  placed : ∀ u U, s.users.get? u = some U → U.plan ≠ ""
  whole : ∀ u arr p, s.Way u arr → p ∈ arr → '/' ∉ encodedName p
  distinct : ∀ u v arr arr' p q, s.Way u arr → s.Way v arr' → p ∈ arr → q ∈ arr' →
    encodedName p = encodedName q → p = q

/-- No plan that is right below the plan of a user and above another user has the user's name for
its directory. -/
def NoNamesake (s : Store) : Prop :=
  ∀ a A b arr p, a ≠ b → s.users.get? a = some A → s.Way b arr → p ∈ arr →
    s.getParentPlanName p = some A.plan → encodedName p ≠ a.toList

section Apart
variable (hname : ∀ u ∈ s.users, userNameAccepted u = true)
include hname

theorem homesApart_iff_names (apps_folder : List Char) :
    s.HomesApart apps_folder ↔ s.NamesApart := by
  have hplace : ∀ u U path, s.users.get? u = some U → s.getUserPath apps_folder U.plan u = .ok path →
      ∃ arr, s.Way u arr ∧ Paths.place path = Paths.place apps_folder ++ (dirs arr ++ [u.toList]) := by
    intro u U path hU hpath
    obtain ⟨arr, harr, rfl⟩ := getUserPath_ok hpath
    exact ⟨arr, ⟨U, hU, harr⟩, place_home apps_folder arr (hname u (Dict.mem_of_get? hU))⟩
  have hends : ∀ a b : String, a ≠ b → a.toList ≠ b.toList := by
    intro a b hab he
    exact hab (String.toList_injective he)
  constructor
  · rintro h a b arr arr' hab ⟨A, hA, harr⟩ ⟨B, hB, harr'⟩ hbegins
    have hpath : ∀ (u : String) (U : User) arr, s.pathPlans s.fuel U.plan = .ok arr →
        ∃ path, s.getUserPath apps_folder U.plan u = .ok path := by
      intro u U arr harr
      exact ⟨_, Collect.bind_ok.2 ⟨arr, harr, rfl⟩⟩
    obtain ⟨path, hpa⟩ := hpath a A arr harr
    obtain ⟨path', hpb⟩ := hpath b B arr' harr'
    apply h a A b B path path' hA hB hab hpa hpb
    obtain ⟨arr₁, ⟨A₁, hA₁, harr₁⟩, hp⟩ := hplace a A path hA hpa
    obtain ⟨arr₂, ⟨B₂, hB₂, harr₂⟩, hp'⟩ := hplace b B path' hB hpb
    cases Option.some.inj (hA.symm.trans hA₁)
    cases Option.some.inj (hB.symm.trans hB₂)
    cases Except.ok.inj (harr.symm.trans harr₁)
    cases Except.ok.inj (harr'.symm.trans harr₂)
    rw [Paths.Inside, hp, hp', List.prefix_append_right_inj, prefix_of_last_ne (hends a b hab)]
    exact hbegins
  · intro h a A b B path path' hA hB hab hpa hpb hinside
    obtain ⟨arr, hway, hp⟩ := hplace a A path hA hpa
    obtain ⟨arr', hway', hp'⟩ := hplace b B path' hB hpb
    rw [Paths.Inside, hp, hp', List.prefix_append_right_inj,
      prefix_of_last_ne (hends a b hab)] at hinside
    exact h a b arr arr' hab hway hway' hinside

end Apart

theorem dirs_of_whole (hne : ∀ p ∈ arr, p ≠ "") (hwhole : ∀ p ∈ arr, '/' ∉ encodedName p) :
    dirs arr = arr.map encodedName := by
  induction arr with
  | nil => rfl
  | cons p arr ih =>
    have hp := Paths.pieces_of_plain (encodedName_ne_nil (hne p List.mem_cons_self))
      (hwhole p List.mem_cons_self)
    rw [dirs, List.flatMap_cons, hp, List.map_cons, List.singleton_append]
    congr 1
    exact ih (fun q hq => hne q (List.mem_cons_of_mem _ hq))
      fun q hq => hwhole q (List.mem_cons_of_mem _ hq)

/-- Where the names are plain, homes meet only at a plan with the name of a user next to it. -/
theorem PlainNames.namesApart_iff (h : s.PlainNames) : s.NamesApart ↔ s.NoNamesake := by
  have hdirs : ∀ u arr, s.Way u arr → dirs arr = arr.map encodedName := by
    rintro u arr ⟨U, hU, harr⟩
    exact dirs_of_whole (fun p hp => pathPlans_ne_empty harr hp) fun p hp =>
      h.whole u arr p ⟨U, hU, harr⟩ hp
  constructor
  · rintro hapart a A b arr p hab hA ⟨B, hB, harr⟩ hp hup he
    obtain ⟨l, r, rfl⟩ := List.append_of_mem hp
    have hbegins : l ++ [p] <+: l ++ p :: r := ⟨r, by simp⟩
    have hway := pathPlans_prefix harr hbegins
    obtain ⟨above, habove, hl⟩ := pathPlans_below hway (pathPlans_ne_empty harr hp) hup
    have hlabove : l = above := List.append_inj_left' hl rfl
    subst hlabove
    apply hapart a b l (l ++ p :: r) hab ⟨A, hA, habove⟩ ⟨B, hB, harr⟩
    rw [hdirs a l ⟨A, hA, habove⟩, hdirs b _ ⟨B, hB, harr⟩, ← he]
    have hmap := hbegins.map encodedName
    rwa [List.map_append] at hmap
  · rintro hno a b arr arr' hab ⟨A, hA, harr⟩ ⟨B, hB, harr'⟩ hbegins
    rw [hdirs a arr ⟨A, hA, harr⟩, hdirs b arr' ⟨B, hB, harr'⟩] at hbegins
    obtain ⟨rest, hrest⟩ := hbegins
    rw [List.append_assoc] at hrest
    obtain ⟨l, r, rfl, hl, hr⟩ := List.map_eq_append_iff.1 hrest.symm
    obtain ⟨p, r, rfl, hp, -⟩ := List.map_eq_cons_iff.1 hr
    have hsame : l = arr := by
      apply eq_of_map_eq hl
      intro x hx y hy
      exact h.distinct b a _ arr x y ⟨B, hB, harr'⟩ ⟨A, hA, harr⟩ (List.mem_append_left _ hx) hy
    subst hsame
    have hmem : p ∈ l ++ p :: r := List.mem_append_right _ List.mem_cons_self
    have hbegins : l ++ [p] <+: l ++ p :: r := ⟨r, by simp⟩
    have hway := pathPlans_prefix harr' hbegins
    obtain ⟨above, hlast⟩ := pathPlans_last harr (h.placed a A hA)
    apply hno a A b _ p hab hA ⟨B, hB, harr'⟩ hmem _ hp
    cases hup : s.getParentPlanName p with
    | none =>
      have hone : s.pathPlans s.fuel p = .ok [p] := by
        rw [Store.fuel, pathPlans, if_neg (pathPlans_ne_empty harr' hmem), hup]
      have hnil := List.append_inj_left' (Except.ok.inj (hway.symm.trans hone) :
        l ++ [p] = [] ++ [p]) rfl
      rw [hlast] at hnil
      exact absurd hnil (by simp)
    | some q =>
      obtain ⟨above', habove', hl'⟩ := pathPlans_below hway (pathPlans_ne_empty harr' hmem) hup
      have hlabove : l = above' := List.append_inj_left' hl' rfl
      subst hlabove
      have hq : q ≠ "" := by
        rintro rfl
        have hempty : s.pathPlans s.fuel "" = .ok [] := by
          rw [Store.fuel, pathPlans, if_pos rfl]
        have hnil : l = [] := Except.ok.inj (habove'.symm.trans hempty)
        rw [hlast] at hnil
        exact absurd hnil (by simp)
      obtain ⟨above'', hlast'⟩ := pathPlans_last habove' hq
      have hend := List.append_inj_right' (hlast'.symm.trans hlast) rfl
      rw [List.singleton_inj.1 hend]

/-- The adds of plans and of users; the validator of user names lets the name of a user pass. -/
def AcceptedAdd : Call → Prop
  | .addPlan _ _ _ => True
  | .addUser _ name _ => userNameAccepted name = true
  | _ => False

theorem accepted_of_reached (h : Reached (fun _ c => AcceptedAdd c) s) :
    ∀ u ∈ s.users, userNameAccepted u = true := by
  apply h.keeps (P := fun s => ∀ u ∈ s.users, userNameAccepted u = true)
  · intro u hu
    exact absurd hu List.not_mem_nil
  · intro t c ht hc
    cases c with
    | addPlan owner name opts =>
      change ∀ u ∈ (t.addPlan owner name opts).1.users, _
      rcases hr : t.addPlan owner name opts with ⟨t', r⟩
      rcases addPlan_cases hr with ⟨rfl, -⟩ | ⟨-, -, ⟨-, plan, -, rfl⟩ |
        ⟨o, user, parent, plan, -, -, -, -, -, rfl⟩⟩
      · exact ht
      · exact ht
      · intro u hu
        exact ht u (Dict.mem_modify.1 hu)
    | addUser p name opts =>
      change ∀ u ∈ (t.addUser p name opts).1.users, _
      rcases hr : t.addUser p name opts with ⟨t', r⟩
      rcases addUser_cases hr with ⟨rfl, -⟩ | ⟨-, -, parent, -, -, rfl⟩
      · exact ht
      · intro u hu
        rcases Dict.mem_set.1 hu with rfl | hu
        · exact hc
        · exact ht u hu
    | _ => exact hc.elim

/-- In a store made by adding plans and users, the homes are apart just when the names on the ways
down to the plans are; where these are plain, just when no plan is the namesake of a user next to
it. -/
theorem homes_apart_iff (h : Reached (fun _ c => AcceptedAdd c) s) (hf : s.Climbs)
    (apps_folder : List Char) :
    (∀ u U, s.users.get? u = some U → ∃ path, s.getUserPath apps_folder U.plan u = .ok path) ∧
      (s.HomesApart apps_folder ↔ s.NamesApart) ∧
        (s.PlainNames → (s.HomesApart apps_folder ↔ s.NoNamesake)) := by
  have hiff := homesApart_iff_names (accepted_of_reached h) apps_folder
  refine ⟨?_, hiff, ?_⟩
  · intro u U _
    obtain ⟨arr, harr⟩ := pathPlans_ends (hf.ends U.plan)
    exact ⟨_, Collect.bind_ok.2 ⟨arr, harr, rfl⟩⟩
  · intro hplain
    exact hiff.trans hplain.namesApart_iff

section Ways
variable {way : String → List String} (hway : ∀ e ∈ s.users.entries, s.pathPlans s.fuel e.2.plan = .ok (way e.1))
include hway

theorem Way.eq_of_all (hw : s.Way u arr) : u ∈ s.users.keys ∧ arr = way u := by
  obtain ⟨U, hU, harr⟩ := hw
  refine ⟨Dict.mem_keys.2 (Dict.mem_of_get? hU), ?_⟩
  exact Except.ok.inj (harr.symm.trans (hway (u, U) (Dict.get?_eq_some.1 hU)))

theorem plainNames_of_all (hplaced : ∀ e ∈ s.users.entries, e.2.plan ≠ "")
    (hwhole : ∀ u ∈ s.users.keys, ∀ p ∈ way u, '/' ∉ encodedName p)
    (hdistinct : ∀ u ∈ s.users.keys, ∀ v ∈ s.users.keys, ∀ p ∈ way u, ∀ q ∈ way v,
      encodedName p = encodedName q → p = q) : s.PlainNames where
  placed u U hU := hplaced (u, U) (Dict.get?_eq_some.1 hU)
  whole u arr p hw hp := by
    obtain ⟨hu, rfl⟩ := hw.eq_of_all hway
    exact hwhole u hu p hp
  distinct u v arr arr' p q hw hw' hp hq := by
    obtain ⟨hu, rfl⟩ := hw.eq_of_all hway
    obtain ⟨hv, rfl⟩ := hw'.eq_of_all hway
    exact hdistinct u hu v hv p hp q hq

theorem noNamesake_of_all (hall : ∀ e ∈ s.users.entries, ∀ v ∈ s.users.keys, ∀ p ∈ way v,
    s.getParentPlanName p = some e.2.plan → encodedName p ≠ e.1.toList) : s.NoNamesake := by
  intro a A b arr p _ hA hw hp
  obtain ⟨hb, rfl⟩ := hw.eq_of_all hway
  exact hall (a, A) (Dict.get?_eq_some.1 hA) b hb p hp

end Ways

/-- A user of gold, another one with a plan next to him, and a user of that plan. -/
def neighbourCalls (name : String) : List Call :=
  [.addUser unlimitedPlanName "ann" .empty, .addPlan (some "ann") "gold" (planOpts 5 5),
    .addUser "gold" "bob" .empty, .addUser "gold" name .empty,
    .addPlan (some "bob") "silver" (planOpts 2 2), .addUser "silver" "cat" .empty]

/-- The user has the name that the plan next to him is encoded to. -/
def namesakeCalls : List Call := neighbourCalls "c2lsdmVy"

theorem climbs_neighbourCalls {name : String} (hne : name ≠ "") (hsuper : name ≠ superUser) :
    (installed.run (neighbourCalls name)).Climbs := by
  have hreached : Reached (fun _ c => Adds c) (installed.run (neighbourCalls name)) := by
    apply Runs.Reached.run .start
    exact ⟨⟨by decide, by decide, plainOpts_empty⟩,
      ⟨by decide, by decide, plainOpts_planOpts 5 5, wholeLimits_planOpts 5 5⟩,
      ⟨by decide, by decide, plainOpts_empty⟩, ⟨hne, hsuper, plainOpts_empty⟩,
      ⟨by decide, by decide, plainOpts_planOpts 2 2, wholeLimits_planOpts 2 2⟩,
      ⟨by decide, by decide, plainOpts_empty⟩, trivial⟩
  exact (consistent_of_adds hreached).forest.climbs

theorem climbs_namesakeCalls : (installed.run namesakeCalls).Climbs :=
  climbs_neighbourCalls (by decide) (by decide)

theorem reached_neighbourCalls {name : String} (hname : userNameAccepted name = true) :
    Reached (fun _ c => AcceptedAdd c) (installed.run (neighbourCalls name)) := by
  apply Runs.Reached.run .start
  exact ⟨rfl, trivial, rfl, hname, trivial, rfl, trivial⟩

theorem reached_namesakeCalls : Reached (fun _ c => AcceptedAdd c) (installed.run namesakeCalls) :=
  reached_neighbourCalls rfl

/-- The plans above the users of the samples. -/
def neighbourWay (u : String) : List String :=
  if u = "ann" then [unlimitedPlanName]
  else if u = "cat" then [unlimitedPlanName, "gold", "silver"]
  else [unlimitedPlanName, "gold"]

/-- The homes are apart next to a user with a name of his own, and not next to the plan's namesake. -/
theorem homes_apart_iff_sample :
    (installed.run (neighbourCalls "dave")).HomesApart "/srv".toList ∧
      ¬(installed.run namesakeCalls).HomesApart "/srv".toList := by
  constructor
  · have hway : ∀ e ∈ (installed.run (neighbourCalls "dave")).users.entries,
        (installed.run (neighbourCalls "dave")).pathPlans (installed.run (neighbourCalls "dave")).fuel e.2.plan =
          .ok (neighbourWay e.1) := by decide +kernel
    refine ((homes_apart_iff (reached_neighbourCalls rfl) (climbs_neighbourCalls (by decide) (by decide))
      "/srv".toList).2.2 (plainNames_of_all hway ?_ ?_ ?_)).2 (noNamesake_of_all hway ?_)
    all_goals decide +kernel
  · have hway : ∀ e ∈ (installed.run namesakeCalls).users.entries,
        (installed.run namesakeCalls).pathPlans (installed.run namesakeCalls).fuel e.2.plan =
          .ok (neighbourWay e.1) := by decide +kernel
    intro happart
    have hno := ((homes_apart_iff reached_namesakeCalls climbs_namesakeCalls "/srv".toList).2.2
      (plainNames_of_all hway (by decide +kernel) (by decide +kernel) (by decide +kernel))).1 happart
    have hcat : (installed.run namesakeCalls).Way "cat" [unlimitedPlanName, "gold", "silver"] := ⟨_, rfl, rfl⟩
    exact hno "c2lsdmVy" _ "cat" _ "silver" (by decide) rfl hcat (by decide) rfl (by decide +kernel)

/-- The home of a user named like the encoded plan next to him holds the homes of its users. -/
theorem home_in_home : ¬∀ s, Reached (fun _ c => AcceptedAdd c) s → s.Climbs →
    ∀ apps_folder, s.HomesApart apps_folder := by
  intro h
  have hpath : (installed.run namesakeCalls).getUserPath "/srv".toList "gold" "c2lsdmVy" =
      .ok "/srv/VW5saW1pdGVk/Z29sZA/c2lsdmVy".toList := rfl
  have hpath' : (installed.run namesakeCalls).getUserPath "/srv".toList "silver" "cat" =
      .ok "/srv/VW5saW1pdGVk/Z29sZA/c2lsdmVy/cat".toList := rfl
  have hinside : Paths.Inside "/srv/VW5saW1pdGVk/Z29sZA/c2lsdmVy".toList
      "/srv/VW5saW1pdGVk/Z29sZA/c2lsdmVy/cat".toList :=
    ⟨["cat".toList], rfl⟩
  exact h (installed.run namesakeCalls) reached_namesakeCalls climbs_namesakeCalls "/srv".toList
    "c2lsdmVy" _ "cat" _ _ _ rfl rfl (by decide) hpath hpath' hinside

end Store
end JXPanel

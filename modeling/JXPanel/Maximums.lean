import JXPanel.Halting
import JXPanel.Room

namespace JXPanel
set_option autoImplicit true

open Hierarchy

/-- A value as the forms store it: an integer, or nothing where the field came after the plan. -/
def IntOrMissing (v : JsVal) : Prop := v = .undefined ∨ ∃ n, v = .num (.int n)

def isMissing : JsVal → Bool
  | .undefined => true
  | _ => false

/-- The limit that a value sets, which a missing one and -1 do not. -/
def setLimit : JsVal → Option Int
  | .num (.int n) => if n = -1 then none else some n
  | _ => none

/-- The least limit that the values along a chain of plans set. -/
def leastLimit (vals : List JsVal) : Option Int := (vals.filterMap setLimit).min?

def limitVal : Option Int → JsVal
  | none => defaultMaximum
  | some n => .num (.int n)

/-- The values below the first missing one. -/
def beforeGap (vals : List JsVal) : List JsVal := vals.takeWhile fun v => !isMissing v

/-- The values from the first missing one on. -/
def fromGap (vals : List JsVal) : List JsVal := vals.dropWhile fun v => !isMissing v

/-- No limit from the first missing value on is below all those before it. -/
def GapHides (vals : List JsVal) : Prop :=
  ∀ n ∈ (fromGap vals).filterMap setLimit, ∃ m ∈ (beforeGap vals).filterMap setLimit, m ≤ n

/-- No value is missing, or a limit set before the first missing one is the least of all. -/
def GapHarmless (vals : List JsVal) : Prop :=
  (∀ v ∈ vals, isMissing v = false) ∨
    ∃ m ∈ (beforeGap vals).filterMap setLimit, ∀ n ∈ (fromGap vals).filterMap setLimit, m ≤ n

namespace Store

theorem lt_missing (v : JsVal) : v.lt .undefined = false := by
  cases v <;> simp [JsVal.lt, JsVal.toNumber, JsNum.lt]
  all_goals (split <;> simp_all)

@[simp] theorem lesserMaximum_missing (v : JsVal) : lesserMaximum .undefined v = .undefined := by
  have hne : JsVal.strictEq .undefined defaultMaximum = false := rfl
  simp only [lesserMaximum, hne, Bool.or_false, lt_missing]
  cases v.strictEq defaultMaximum <;> rfl

@[simp] theorem lesserMaximum_default (v : JsVal) : lesserMaximum v defaultMaximum = v := rfl

/-- A value that is there leaves what is above it unless it sets a lower limit. -/
theorem lesserMaximum_int (n : Int) (v : JsVal) (hv : IntOrMissing v) :
    lesserMaximum (.num (.int n)) v =
      if n = -1 then v else (setLimit v).elim (.num (.int n)) fun m => .num (.int (min n m)) := by
  have hn : JsVal.strictEq (.num (.int n)) defaultMaximum = decide (n = -1) := by
    simp [JsVal.strictEq, defaultMaximum]
  rcases hv with rfl | ⟨m, rfl⟩
  · have hm : JsVal.strictEq .undefined defaultMaximum = false := rfl
    have hlt : JsVal.lt .undefined (.num (.int n)) = false := rfl
    simp only [lesserMaximum, hn, hm, Bool.false_or, hlt, setLimit, Option.elim]
    by_cases h : n = -1 <;> simp [h]
  · have hm : JsVal.strictEq (.num (.int m)) defaultMaximum = decide (m = -1) := by
      simp [JsVal.strictEq, defaultMaximum]
    have hlt : JsVal.lt (.num (.int m)) (.num (.int n)) = decide (m < n) := rfl
    simp only [lesserMaximum, hn, hm, hlt, setLimit]
    by_cases h : n = -1
    · by_cases h' : m = -1
      · simp [h, h']
      · simp [h, h']
    · by_cases h' : m = -1
      · simp [h, h']
      · by_cases hl : m < n
        · simp [h, h', hl, min_eq_right hl.le]
        · simp [h, h', hl, min_eq_left (not_lt.1 hl)]

theorem leastLimit_cons (n : Int) (l : List JsVal) : leastLimit (.num (.int n) :: l) =
    if n = -1 then leastLimit l else some ((leastLimit l).elim n (min n)) := by
  by_cases h : n = -1
  · simp [leastLimit, setLimit, h]
  · simp [leastLimit, setLimit, h, List.min?_cons]

theorem leastLimit_mem (h : leastLimit l = some m) : m ∈ l.filterMap setLimit :=
  List.min?_mem h

theorem leastLimit_ne (h : leastLimit l = some m) : m ≠ -1 := by
  obtain ⟨v, -, hv⟩ := List.mem_filterMap.1 (leastLimit_mem h)
  unfold setLimit at hv
  split at hv
  · split at hv
    · cases hv
    · rename_i hne
      rwa [← Option.some.inj hv]
  · cases hv

/-- What the recursion comes to above a run of values that are all there: their least limit,
and what it got from further up if they set none. -/
theorem foldr_lesserMaximum {b : JsVal} (hb : IntOrMissing b) (hnone : setLimit b = none)
    (l : List JsVal) (hl : ∀ v ∈ l, IntOrMissing v) (hthere : ∀ v ∈ l, isMissing v = false) :
    l.foldr lesserMaximum b = (leastLimit l).elim b fun m => .num (.int m) := by
  induction l with
  | nil => rfl
  | cons v l ih =>
    have ih := ih (fun w hw => hl w (List.mem_cons_of_mem _ hw))
      (fun w hw => hthere w (List.mem_cons_of_mem _ hw))
    rcases hl v List.mem_cons_self with rfl | ⟨n, rfl⟩
    · exact absurd (hthere _ List.mem_cons_self) Bool.noConfusion
    · rw [List.foldr_cons, ih, leastLimit_cons]
      cases hm : leastLimit l with
      | none =>
        rw [Option.elim_none, lesserMaximum_int n b hb, hnone]
        by_cases h : n = -1
        · rw [if_pos h, if_pos h]
          rfl
        · rw [if_neg h, if_neg h]
          rfl
      | some m =>
        have hset : setLimit (.num (.int m)) = some m := if_neg (leastLimit_ne hm)
        rw [Option.elim_some, lesserMaximum_int n _ (.inr ⟨m, rfl⟩), hset]
        by_cases h : n = -1
        · rw [if_pos h, if_pos h]
          rfl
        · rw [if_neg h, if_neg h]
          rfl

theorem beforeGap_there (vals : List JsVal) : ∀ v ∈ beforeGap vals, isMissing v = false := by
  intro v hv
  simpa using List.mem_takeWhile_imp hv

theorem gap_eq (vals : List JsVal) : beforeGap vals ++ fromGap vals = vals :=
  List.takeWhile_append_dropWhile

/-- From the first missing value on there is nothing, or that value and more. -/
theorem fromGap_cases (vals : List JsVal) (hv : ∀ v ∈ vals, IntOrMissing v) :
    (fromGap vals = [] ∧ ∀ v ∈ vals, isMissing v = false) ∨
      ∃ rest, fromGap vals = .undefined :: rest := by
  cases hg : fromGap vals with
  | nil =>
    refine .inl ⟨rfl, ?_⟩
    intro v hmem
    rw [← gap_eq vals, hg, List.append_nil] at hmem
    exact beforeGap_there vals v hmem
  | cons w rest =>
    have hw : isMissing w = true := by
      have hnot := List.head?_dropWhile_not (fun v => !isMissing v) vals
      rw [show vals.dropWhile (fun v => !isMissing v) = w :: rest from hg] at hnot
      simpa using hnot
    have hmem : w ∈ vals := by
      rw [← gap_eq vals, hg]
      exact List.mem_append_right _ List.mem_cons_self
    rcases hv w hmem with rfl | ⟨n, rfl⟩
    · exact .inr ⟨rest, rfl⟩
    · cases hw

/-- Nothing above the first missing value has a say. -/
theorem foldr_lesserMaximum_gap (vals : List JsVal) (hv : ∀ v ∈ vals, IntOrMissing v) :
    vals.foldr lesserMaximum defaultMaximum =
      (leastLimit (beforeGap vals)).elim (if fromGap vals = [] then defaultMaximum else .undefined)
        fun m => .num (.int m) := by
  have hpre : ∀ v ∈ beforeGap vals, IntOrMissing v := by
    intro v hmem
    apply hv
    rw [← gap_eq vals]
    exact List.mem_append_left _ hmem
  conv => lhs; rw [← gap_eq vals, List.foldr_append]
  rcases fromGap_cases vals hv with ⟨hnil, -⟩ | ⟨rest, hrest⟩
  · rw [hnil, if_pos rfl, List.foldr_nil]
    exact foldr_lesserMaximum (.inr ⟨-1, rfl⟩) rfl _ hpre (beforeGap_there vals)
  · rw [hrest, if_neg (List.cons_ne_nil _ _), List.foldr_cons, lesserMaximum_missing]
    exact foldr_lesserMaximum (.inl rfl) rfl _ hpre (beforeGap_there vals)

theorem leastLimit_eq_iff (vals : List JsVal) :
    leastLimit vals = leastLimit (beforeGap vals) ↔ GapHides vals := by
  have happ : vals.filterMap setLimit =
      (beforeGap vals).filterMap setLimit ++ (fromGap vals).filterMap setLimit := by
    rw [← List.filterMap_append, gap_eq]
  rw [leastLimit, happ]
  exact Collect.min?_append_eq_left _ _

/-- The recursion comes to the least limit just when no missing value is in its way. -/
theorem foldr_eq_leastLimit_iff (vals : List JsVal) (hv : ∀ v ∈ vals, IntOrMissing v) :
    vals.foldr lesserMaximum defaultMaximum = limitVal (leastLimit vals) ↔ GapHarmless vals := by
  have hfold := foldr_lesserMaximum_gap vals hv
  rcases fromGap_cases vals hv with ⟨hnil, hthere⟩ | ⟨rest, hrest⟩
  · have hpre : beforeGap vals = vals := by
      have h := gap_eq vals
      rwa [hnil, List.append_nil] at h
    rw [hnil, if_pos rfl, hpre] at hfold
    rw [hfold]
    refine iff_of_true ?_ (.inl hthere)
    cases leastLimit vals <;> rfl
  · rw [hrest, if_neg (List.cons_ne_nil _ _)] at hfold
    rw [hfold]
    constructor
    · intro h
      cases hm : leastLimit (beforeGap vals) with
      | none =>
        rw [hm] at h
        cases hall : leastLimit vals <;> rw [hall] at h <;> cases h
      | some m =>
        rw [hm] at h
        have hall : leastLimit vals = some m := by
          cases hk : leastLimit vals with
          | none =>
            rw [hk] at h
            cases h
            exact absurd rfl (leastLimit_ne hm)
          | some k =>
            rw [hk] at h
            cases h
            rfl
        refine .inr ⟨m, leastLimit_mem hm, fun n hn => ?_⟩
        apply (List.min?_eq_some_iff.1 hall).2
        rw [← gap_eq vals, List.filterMap_append]
        exact List.mem_append_right _ hn
    · rintro (hthere | ⟨m, hm, hle⟩)
      · have hmem : .undefined ∈ vals := by
          rw [← gap_eq vals, hrest]
          exact List.mem_append_right _ List.mem_cons_self
        exact absurd (hthere _ hmem) Bool.noConfusion
      · rw [(leastLimit_eq_iff vals).2 fun n hn => ⟨m, hm, hle n hn⟩]
        cases hk : leastLimit (beforeGap vals) with
        | none =>
          rw [leastLimit, List.min?_eq_none_iff] at hk
          rw [hk] at hm
          exact absurd hm List.not_mem_nil
        | some k => rfl

/-- The plans whose limits a plan is under: itself and those above it, less the root. -/
def limitChain (s : Store) (p : String) : List String :=
  (climb s.parentUp s.fuel p).takeWhile (· ≠ unlimitedPlanName)

/-- What a plan has in its maximums. -/
def maximumAt (s : Store) (field_name p : String) : JsVal :=
  ((s.plans.get? p).map fun P => prop P.planMaximums field_name).getD .undefined

def chainMaximums (s : Store) (field_name p : String) : List JsVal :=
  (s.limitChain p).map (s.maximumAt field_name)

variable {s : Store}

theorem maximumAt_of_get? (h : s.plans.get? p = some P) :
    s.maximumAt f p = prop P.planMaximums f := by
  rw [maximumAt, h]
  rfl

/-- The references of a consistent store give every plan but the top one its parent. -/
theorem parentPlan_eq (hn : Named s) (hP : s.plans.get? p = some P)
    (hself : s.parentUp p ≠ some p) : s.parentPlan P = (s.parentUp p).bind s.plans.get? := by
  obtain ⟨hname, hp, howner⟩ := hn.plan p P hP
  rw [parentPlan, if_neg howner, getParentPlanName, hname, hP, parentUp_of_get? hP]
  dsimp only
  cases hU : s.users.get? P.owner with
  | none =>
    rw [planOf, hU]
    rfl
  | some U =>
    have hne : p ≠ U.plan := by
      rintro rfl
      apply hself
      rw [parentUp_of_get? hP]
      exact planOf_of_get? hU
    rw [planOf_of_get? hU]
    dsimp only
    rw [if_neg hne]
    exact if_neg (hn.user _ U hU).2.2

/-- The parent of a plan that has one is there. -/
theorem parentUp_get? (hi : Integrity s) (h : s.parentUp p = some q) :
    ∃ Q, s.plans.get? q = some Q := by
  obtain ⟨o, -, ho⟩ := Option.bind_eq_some_iff.1 h
  exact Dict.mem_iff.1 (mem_plans_of_seat ((hi.seat o q).1 ho))

/-- The recursion folds the values along the chain of plans, from the root down. -/
theorem getMaximum_eq (hi : Integrity s) (hn : Named s) (f : String)
    (hP : s.plans.get? p = some P) (he : Ends s.parentUp n p) :
    s.getMaximum f n P = .ok ((((climb s.parentUp n p).takeWhile (· ≠ unlimitedPlanName)).map
      (s.maximumAt f)).foldr lesserMaximum defaultMaximum) := by
  induction n generalizing p P with
  | zero => exact he.elim
  | succ n ih =>
    rw [getMaximum, climb, (hn.plan p P hP).1]
    by_cases htop : p = unlimitedPlanName
    · rw [if_pos htop, List.takeWhile_cons_of_neg (by simpa using htop)]
      rfl
    · rw [if_neg htop, List.takeWhile_cons_of_pos (by simpa using htop), List.map_cons,
        List.foldr_cons, maximumAt_of_get? hP]
      have hself : s.parentUp p ≠ some p := fun h =>
        he.not_back (m := 1) h List.mem_cons_self
      rw [parentPlan_eq hn hP hself]
      cases hq : s.parentUp p with
      | none =>
        rw [Option.map_none, Option.getD_none, List.takeWhile_nil, List.map_nil, List.foldr_nil,
          lesserMaximum_default]
        rfl
      | some q =>
        obtain ⟨Q, hQ⟩ := parentUp_get? hi hq
        rw [Option.bind_some, hQ]
        dsimp only
        rw [ih hQ (he q hq)]
        rfl

end Store

end JXPanel

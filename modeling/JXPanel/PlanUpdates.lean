import JXPanel.AppConfig
import JXPanel.Grants
import JXPanel.Growth
import JXPanel.Reasons
import JXPanel.Totals

namespace JXPanel
set_option autoImplicit true

open Hierarchy

namespace Store

/-- A plan has a maximum that is more than the one above it allows. -/
def tooMuch (s : Store) (o : String) (max_new : JsVal) (q : String) : Bool :=
  ((s.plans.get? q).map fun Q =>
    (prop Q.planMaximums o).truthy && Plan.beyond (prop Q.planMaximums o) max_new).getD false

/-- The new maximums have the field, and the plan has more of it. -/
def Over (s : Store) (max_new : Obj) (q o : String) : Prop :=
  ∃ v, max_new.get? o = some v ∧ s.tooMuch o v q = true

/-- The plans below a plan as the traversal meets them. -/
def plansBelow (s : Store) (p : String) : List String :=
  match s.getPlansByPlanName p deepest with
  | .ok l => l
  | .error _ => []

/-- A plan is owned by a user of `p`, or of a plan further down. -/
def Under (s : Store) (p q : String) : Prop := Relation.TransGen (fun x y => y ∈ s.subs x) p q

/-- Whether a plan is still active when those below `p` that have too much are suspended. -/
def left (s : Store) (p : String) (max_new : Obj) (q : String) : Bool :=
  s.active q && !(decide (q ∈ s.plansBelow p) && max_new.entries.any fun e => s.tooMuch e.1 e.2 q)

/-- What `p` is then charged. -/
def countLeft (s : Store) (m : Measure) (p : String) (max_new : Obj) : Nat :=
  weight (fun x => (s.seats x).flatMap fun u => (s.ownPlans u).filter (s.left p max_new)) (s.charge m) s.fuel p

/-- Plans were suspended for what `why` says, and nothing else changed. -/
structure Lowered (s s' : Store) (why : String → String → Prop) : Prop where
  orderly : Orderly s'
  same : Resuspended s s'
  users : s'.users = s.users
  untouched : ∀ q, (∀ r, ¬why q r) → s'.plans.get? q = s.plans.get? q
  reasons : ∀ q r, s'.PlanFor q r ↔ why q r ∨ s.PlanFor q r

variable {s s₁ s' : Store} {p q o : String} {v : JsVal} {P : Plan}

namespace Lowered
variable {why why₁ : String → String → Prop}

theorem refl (h : Orderly s) : Lowered s s fun _ _ => False := by
  refine ⟨h, .refl s, rfl, fun _ _ => rfl, fun q r => ?_⟩
  exact (or_iff_right id).symm

theorem trans (h : Lowered s s₁ why) (h' : Lowered s₁ s' why₁) : Lowered s s' fun q r => why q r ∨ why₁ q r := by
  refine ⟨h'.orderly, h.same.trans h'.same, h'.users.trans h.users, fun q hq => ?_, fun q r => ?_⟩
  · have hfirst := h.untouched q fun r hr => hq r (.inl hr)
    exact (h'.untouched q fun r hr => hq r (.inr hr)).trans hfirst
  · rw [h'.reasons, h.reasons, or_left_comm, or_assoc]

theorem congr (h : Lowered s s' why) (hw : ∀ q r, why q r ↔ why₁ q r) : Lowered s s' why₁ := by
  refine ⟨h.orderly, h.same, h.users, fun q hq => ?_, fun q r => ?_⟩
  · exact h.untouched q fun r hr => hq r ((hw q r).1 hr)
  · rw [h.reasons, hw]

theorem mem_plans (h : Lowered s s' why) : q ∈ s'.plans ↔ q ∈ s.plans := mem_plans_of_resuspended h.same

end Lowered

/-- Two stores with the same users and the same plans but for one. -/
structure Beside (p : String) (s s' : Store) : Prop where
  users : s'.users = s.users
  plans : ∀ q, q ≠ p → s'.plans.get? q = s.plans.get? q
  keys : s'.plans.keys = s.plans.keys

namespace Beside

theorem refl (p : String) (s : Store) : Beside p s s := ⟨rfl, fun _ _ => rfl, rfl⟩

theorem trans (h : Beside p s s₁) (h' : Beside p s₁ s') : Beside p s s' :=
  ⟨h'.users.trans h.users, fun q hq => (h'.plans q hq).trans (h.plans q hq), h'.keys.trans h.keys⟩

theorem setPlan (hp : p ∈ s.plans) (Q : Plan) : Beside p s (s.setPlan p Q) :=
  ⟨rfl, fun _ hq => Dict.get?_set_ne _ _ hq, Dict.keys_set_of_mem hp Q⟩

theorem suspendPlan (s : Store) (p o : String) : Beside p s (s.suspendPlan p o).1 := by
  unfold Store.suspendPlan
  split
  · exact .refl p s
  · rename_i hP
    split
    · exact .refl p s
    · exact .setPlan (Dict.mem_of_get? hP) _

theorem unSuspendPlan (s : Store) (p : String) (o : Option String) : Beside p s (s.unSuspendPlan p o).1 := by
  unfold Store.unSuspendPlan
  split
  · exact .refl p s
  · rename_i hP
    split
    · exact .refl p s
    · exact .setPlan (Dict.mem_of_get? hP) _

theorem mem_plans (h : Beside p s s') : q ∈ s'.plans ↔ q ∈ s.plans := by
  rw [← Dict.mem_keys, h.keys, Dict.mem_keys]

theorem fuel (h : Beside p s s') : s'.fuel = s.fuel := by
  rw [Store.fuel, Store.fuel, ← Dict.length_keys, h.keys, Dict.length_keys]

theorem planFor (h : Beside p s s') (hq : q ≠ p) (r : String) : s'.PlanFor q r ↔ s.PlanFor q r := by
  rw [PlanFor, PlanFor, h.plans q hq]

end Beside

theorem Resuspended.tooMuch (h : Resuspended s s') (o : String) (v : JsVal) (q : String) :
    s'.tooMuch o v q = s.tooMuch o v q := by
  unfold Store.tooMuch
  rw [h.plan_map (f := fun Q => (prop Q.planMaximums o).truthy && Plan.beyond (prop Q.planMaximums o) v)
    (fun _ => rfl)]

/-- One plan is suspended for a maximum, if it has more of it. -/
theorem Orderly.lowerSubPlan (h : Orderly s) (hq : q ∈ s.plans) (o : String) (v : JsVal) :
    ∃ s', s.lowerSubPlan o v q = (s', .ok ()) ∧
      Lowered s s' fun x r => x = q ∧ r = o ∧ s.tooMuch o v q = true := by
  obtain ⟨Q, hQ⟩ := Dict.mem_iff.1 hq
  have hmuch : s.tooMuch o v q = ((prop Q.planMaximums o).truthy && Plan.beyond (prop Q.planMaximums o) v) := by
    rw [tooMuch, hQ]
    rfl
  unfold Store.lowerSubPlan
  rw [hQ]
  dsimp only
  cases hover : (prop Q.planMaximums o).truthy && Plan.beyond (prop Q.planMaximums o) v with
  | false =>
    rw [hover] at hmuch
    refine ⟨s, if_neg Bool.false_ne_true, (Lowered.refl h).congr fun x r => ?_⟩
    exact iff_of_false id fun he => Bool.false_ne_true (hmuch.symm.trans he.2.2)
  | true =>
    rw [hover] at hmuch
    obtain ⟨s', hrun, horderly, husers, hreasons⟩ := h.suspendPlan hq o
    have hsame := suspendPlan_resuspended s q o
    have hbeside := Beside.suspendPlan s q o
    rw [hrun] at hsame hbeside
    refine ⟨s', (if_pos rfl).trans hrun, horderly, hsame, husers, fun x hx => ?_, fun x r => ?_⟩
    · exact hbeside.plans x fun he => hx o ⟨he, rfl, hmuch⟩
    · rw [hreasons, and_iff_left hmuch]

theorem Orderly.lowerEach (h : Orderly s) {l : List String} (hl : ∀ q ∈ l, q ∈ s.plans) (o : String) (v : JsVal) :
    ∃ s', Collect.runAll (Store.lowerSubPlan o v) l s = (s', .ok ()) ∧
      Lowered s s' fun x r => x ∈ l ∧ r = o ∧ s.tooMuch o v x = true := by
  induction l generalizing s with
  | nil =>
    refine ⟨s, rfl, (Lowered.refl h).congr fun x r => ?_⟩
    exact iff_of_false id fun he => absurd he.1 List.not_mem_nil
  | cons q l ih =>
    obtain ⟨s₁, hone, h₁⟩ := h.lowerSubPlan (hl q List.mem_cons_self) o v
    obtain ⟨s', hrun, h'⟩ := ih h₁.orderly fun x hx => h₁.mem_plans.2 (hl x (List.mem_cons_of_mem q hx))
    refine ⟨s', ?_, (h₁.trans h').congr fun x r => ?_⟩
    · rw [Collect.runAll, hone]
      exact hrun
    · rw [h₁.same.tooMuch, List.mem_cons, or_and_right]
      apply or_congr_left
      constructor
      · rintro ⟨rfl, hr, hmuch⟩
        exact ⟨rfl, hr, hmuch⟩
      · rintro ⟨rfl, hr, hmuch⟩
        exact ⟨rfl, hr, hmuch⟩

/-- What is lowered for any list of new maximums. -/
theorem Orderly.lowerAll (h : Orderly s) {l : List String} (hl : ∀ q ∈ l, q ∈ s.plans) (es : List (String × JsVal)) :
    ∃ s', Collect.runAll (fun s e => Collect.runAll (Store.lowerSubPlan e.1 e.2) l s) es s = (s', .ok ()) ∧
      Lowered s s' fun x r => x ∈ l ∧ ∃ v, (r, v) ∈ es ∧ s.tooMuch r v x = true := by
  induction es generalizing s with
  | nil =>
    refine ⟨s, rfl, (Lowered.refl h).congr fun x r => ?_⟩
    exact iff_of_false id fun he => by
      obtain ⟨_, _, hv, _⟩ := he
      exact absurd hv List.not_mem_nil
  | cons e es ih =>
    obtain ⟨s₁, hone, h₁⟩ := h.lowerEach hl e.1 e.2
    obtain ⟨s', hrun, h'⟩ := ih h₁.orderly fun x hx => h₁.mem_plans.2 (hl x hx)
    refine ⟨s', ?_, (h₁.trans h').congr fun x r => ?_⟩
    · rw [Collect.runAll, hone]
      exact hrun
    · rw [← and_or_left]
      refine and_congr_right fun _ => ?_
      constructor
      · rintro (⟨rfl, hmuch⟩ | ⟨v, hv, hmuch⟩)
        · exact ⟨e.2, List.mem_cons_self, hmuch⟩
        · rw [h₁.same.tooMuch] at hmuch
          exact ⟨v, List.mem_cons_of_mem e hv, hmuch⟩
      · rintro ⟨v, hv, hmuch⟩
        rcases List.mem_cons.1 hv with rfl | hv
        · exact .inl ⟨rfl, hmuch⟩
        · rw [← h₁.same.tooMuch] at hmuch
          exact .inr ⟨v, hv, hmuch⟩

theorem over_iff_mem {max_new : Obj} : s.Over max_new q o ↔ ∃ v, (o, v) ∈ max_new.entries ∧ s.tooMuch o v q = true := by
  unfold Over
  simp only [Dict.get?_eq_some]

/-- The loops over the new maximums and the plans below. -/
theorem Orderly.lowerSubPlans (h : Orderly s) {l : List String} (hl : ∀ q ∈ l, q ∈ s.plans) (max_new : Obj) :
    ∃ s', s.lowerSubPlans max_new l = (s', .ok ()) ∧ Lowered s s' fun x r => x ∈ l ∧ s.Over max_new x r := by
  obtain ⟨s', hrun, h'⟩ := h.lowerAll hl max_new.entries
  exact ⟨s', hrun, h'.congr fun x r => and_congr_right fun _ => over_iff_mem.symm⟩

theorem Under.rank_lt {rank : String → Nat} (hr : ∀ x y, y ∈ s.subs x → rank x < rank y) (h : s.Under p q) :
    rank p < rank q := by
  induction h with
  | single hq => exact hr _ _ hq
  | tail _ hq ih => exact ih.trans (hr _ _ hq)

theorem Under.ne (hr : s.Ranked) (h : s.Under p q) : q ≠ p := by
  obtain ⟨rank, hrank⟩ := hr
  rintro rfl
  exact Nat.lt_irrefl _ (h.rank_lt hrank)

theorem Under.mem_plans (hl : Linked s) (h : s.Under p q) : q ∈ s.plans := by
  obtain ⟨x, _, hq⟩ := Relation.TransGen.tail'_iff.1 h
  obtain ⟨u, hu, hqu⟩ := mem_subs.1 hq
  exact hl.sub_mem hu hqu

/-- The traversal stays below the plan. -/
theorem under_of_getPlansByPlanName {l : List String} (h : s.getPlansByPlanName p deepest = .ok l) (hq : q ∈ l) :
    s.Under p q := by
  obtain ⟨users, husers, h⟩ := Collect.bind_ok.1 h
  obtain ⟨plans, hplans, h⟩ := Collect.bind_ok.1 h
  cases h
  obtain ⟨u, hu, a, ha, hqa⟩ := (Collect.mem_concatM hplans).1 (List.mem_eraseDups.1 hq)
  obtain ⟨x, hx, hux⟩ := (getUsersByPlanName_mem husers).1 hu
  obtain ⟨y, hy, hqy⟩ := (getPlansByUserName_mem ha).1 hqa
  exact (Relation.TransGen.tail' (below_of_mem_descend hx) (mem_subs.2 ⟨u, hux, hy⟩)).trans_left
    (below_of_mem_descend hqy)

/-- What is active behind the loops is what is left. -/
theorem Lowered.active {l : List String} {max_new : Obj}
    (h : Lowered s s' fun x r => x ∈ l ∧ s.Over max_new x r) (hl : s.plansBelow p = l) :
    s'.active = s.left p max_new := by
  funext q
  by_cases hwhy : ∃ r, q ∈ l ∧ s.Over max_new q r
  · obtain ⟨r, hq, hover⟩ := hwhy
    obtain ⟨Q, hQ, htruthy, _⟩ := (h.reasons q r).2 (.inl ⟨hq, hover⟩)
    obtain ⟨v, hv, hmuch⟩ := over_iff_mem.1 hover
    have hany : (max_new.entries.any fun e => s.tooMuch e.1 e.2 q) = true := List.any_eq_true.2 ⟨(r, v), hv, hmuch⟩
    rw [active_of_get? hQ, htruthy, left, hany, hl, decide_eq_true hq, Bool.and_self, Bool.not_true, Bool.and_false]
  · have hsame : s'.active q = s.active q := by
      rw [Store.active, Store.active, h.untouched q fun r hr => hwhy ⟨r, hr⟩]
    have hnone : (decide (q ∈ l) && max_new.entries.any fun e => s.tooMuch e.1 e.2 q) = false := by
      rw [Bool.and_eq_false_iff]
      by_cases hq : q ∈ l
      · right
        rw [← Bool.not_eq_true, List.any_eq_true]
        rintro ⟨e, he, hmuch⟩
        exact hwhy ⟨e.1, hq, over_iff_mem.2 ⟨e.2, he, hmuch⟩⟩
      · exact .inl (decide_eq_false hq)
    rw [hsame, left, hl, hnone, Bool.not_false, Bool.and_true]

/-- So is the total that is taken there. -/
theorem Lowered.total {l : List String} {max_new : Obj} (h : Lowered s s' fun x r => x ∈ l ∧ s.Over max_new x r)
    (hl : s.plansBelow p = l) (hr : s.Ranked) (hP : s'.plans.get? p = some P) (m : Measure) :
    s'.total m s'.fuel P = .ok (s.countLeft m p max_new) := by
  have hseats : s'.seats = s.seats := funext h.same.seats
  have howns : s'.ownPlans = s.ownPlans := funext h.same.ownPlans
  have hranked : s'.Ranked := by
    obtain ⟨rank, hrank⟩ := hr
    refine ⟨rank, fun x y hy => hrank x y ?_⟩
    rw [subs, hseats, howns] at hy
    exact hy
  have hsubs : s'.activeSubs = fun x => (s.seats x).flatMap fun u => (s.ownPlans u).filter (s.left p max_new) := by
    funext x
    rw [activeSubs, hseats, howns, h.active hl]
  have hcharge : s'.charge m = s.charge m := by
    funext x
    rw [charge, charge, hseats, h.users]
  rw [h.orderly.integrity.linked.total_load hranked m hP, load, countLeft, hsubs, hcharge, h.same.fuel]

/-- The total of a plan does not look at the plan's own suspension. -/
theorem Beside.total {rank : String → Nat} (h : Beside p s s') (hr : ∀ x y, y ∈ s.subs x → rank x < rank y)
    (m : Measure) {n : Nat} {x : String} {X : Plan} (hX : s.plans.get? x = some X) (hx : rank p ≤ rank x) :
    s'.total m n X = s.total m n X := by
  induction n generalizing x X with
  | zero => rfl
  | succ n ih =>
    rw [Store.total, Store.total]
    apply Collect.sumM_congr
    intro o ho
    rw [h.users]
    cases hU : s.users.get? o with
    | none => rfl
    | some U =>
      dsimp only
      rw [Collect.sumM_congr]
      intro i hi
      have hsub : i ∈ s.subs x := mem_subs.2 ⟨o, seats_of_get? hX ▸ ho, ownPlans_of_get? hU ▸ hi⟩
      have hlt := hr x i hsub
      rw [h.plans i fun he => by rw [he] at hlt; omega]
      cases hI : s.plans.get? i with
      | none => rfl
      | some I =>
        dsimp only
        rw [ih hI (by omega)]

theorem addReason_listed {v v' : JsVal} {o : String} (h : addReason v o = .ok v') (x : String) :
    Listed v' x ↔ Listed v x ∨ x = o := by
  obtain ⟨l, hl, h⟩ := Collect.bind_ok.1 h
  have hold : Listed v x ↔ JsVal.str x ∈ l := by
    cases ht : v.truthy with
    | true =>
      rw [ht, if_pos rfl] at hl
      exact listed_of_reasons ht hl
    | false =>
      rw [ht, if_neg Bool.false_ne_true] at hl
      cases hl
      refine iff_of_false (fun hx => ?_) List.not_mem_nil
      exact Bool.false_ne_true (ht.symm.trans hx.1)
  rw [hold]
  cases h
  rw [listed_arr]
  split
  · rename_i hin
    rw [any_strictEq] at hin
    refine ⟨.inl, fun hx => hx.elim id ?_⟩
    rintro rfl
    exact hin
  · rw [List.mem_append, List.mem_singleton, JsVal.str.injEq]

/-- A step on the record that an update is given: other plans are as before, and of the record only
the suspension is not. -/
structure DataStep (p : String) (P : Plan) (s s' : Store) (data data' : PlanData) (listed : JsVal → JsVal → Prop) :
    Prop where
  beside : Beside p s s'
  value : ∃ v, s'.readData p P data' = { s.readData p P data with suspended := v } ∧
    listed (s.readData p P data).suspended v

/-- The reason is added to the record. -/
theorem suspendData_ok {data data' : PlanData} (h : s.suspendData p o data = ((s', data'), .ok ())) :
    DataStep p P s s' data data' fun v v' => ∀ x, Listed v' x ↔ Listed v x ∨ x = o := by
  cases data with
  | copy d =>
    rw [suspendData] at h
    cases hv : addReason d.suspended o with
    | error f =>
      rw [hv] at h
      cases h
    | ok v =>
      rw [hv] at h
      obtain ⟨hpair, _⟩ := Prod.mk.inj h
      obtain ⟨rfl, rfl⟩ := Prod.mk.inj hpair
      exact ⟨.refl p s, v, rfl, addReason_listed hv⟩
  | live =>
    have hbeside := Beside.suspendPlan s p o
    rw [suspendData] at h
    obtain ⟨hpair, hok⟩ := Prod.mk.inj h
    obtain ⟨rfl, rfl⟩ := Prod.mk.inj hpair
    unfold Store.suspendPlan at hok ⊢ hbeside
    cases hR : s.plans.get? p with
    | none =>
      rw [hR] at hok
      cases hok
    | some R =>
      rw [hR] at hok hbeside
      dsimp only at hok hbeside ⊢
      cases hv : addReason R.suspended o with
      | error f =>
        rw [hv] at hok
        cases hok
      | ok v =>
        rw [hv] at hbeside
        refine ⟨hbeside, v, ?_, ?_⟩
        · rw [readData, readData, hR]
          exact congrArg (Option.getD · P) (Dict.get?_set_self _ _ _)
        · rw [readData, hR]
          exact addReason_listed hv

/-- The record is suspended if the plan has more than it allows. -/
theorem suspendOver_ok {m : Measure} {reason : String} {data data' : PlanData} {b : Bool}
    (h : suspendOver m reason p P s data = ((s', data'), .ok b)) :
    ∃ count, s.total m s.fuel P = .ok count ∧ b = (m.limit (s.readData p P data)).lt (.ofNat count) ∧
      DataStep p P s s' data data' fun v v' => ∀ x, Listed v' x ↔ Listed v x ∨ (b = true ∧ x = reason) := by
  unfold suspendOver at h
  cases hcount : s.total m s.fuel P with
  | error f =>
    rw [hcount] at h
    cases h
  | ok count =>
    rw [hcount] at h
    dsimp only at h
    refine ⟨count, rfl, ?_⟩
    cases hover : (m.limit (s.readData p P data)).lt (.ofNat count) with
    | false =>
      rw [hover, if_neg Bool.false_ne_true] at h
      cases h
      refine ⟨rfl, .refl p s, _, rfl, fun x => ?_⟩
      exact (or_iff_left fun hx => Bool.false_ne_true hx.1).symm
    | true =>
      rw [hover, if_pos rfl] at h
      rcases hdata : s.suspendData p reason data with ⟨⟨s₁, data₁⟩, f | _⟩
      · rw [hdata] at h
        cases h
      · rw [hdata] at h
        cases h
        obtain ⟨hbeside, v, hv, hlisted⟩ := suspendData_ok (P := P) hdata
        refine ⟨rfl, hbeside, v, hv, fun x => ?_⟩
        rw [hlisted, and_iff_right rfl]

theorem DataStep.trans {s₂ : Store} {data data₁ data₂ : PlanData} {l₁ l₂ : JsVal → JsVal → Prop}
    (h : DataStep p P s s₁ data data₁ l₁) (h' : DataStep p P s₁ s₂ data₁ data₂ l₂) :
    DataStep p P s s₂ data data₂ fun v v₂ => ∃ v₁, l₁ v v₁ ∧ l₂ v₁ v₂ := by
  obtain ⟨v₁, hv₁, hl₁⟩ := h.value
  obtain ⟨v₂, hv₂, hl₂⟩ := h'.value
  rw [hv₁] at hv₂ hl₂
  exact ⟨h.beside.trans h'.beside, v₂, hv₂, v₁, hl₁, hl₂⟩

/-- The reasons are all taken away, unless one was just given. -/
theorem unSuspendData_spec (hp : p ∈ s.plans) (data : PlanData) (b : Bool) :
    let r := if (s.readData p P data).suspended.truthy && !b then s.unSuspendData p data else (s, data)
    DataStep p P s r.1 data r.2 fun v v' => ∀ x, Listed v' x ↔ b = true ∧ Listed v x := by
  dsimp only
  split
  · rename_i hclear
    obtain ⟨-, hb⟩ := Bool.and_eq_true_iff.1 hclear
    have hgone : ∀ x, Listed (.bool false) x ↔ b = true ∧ Listed (s.readData p P data).suspended x := by
      intro x
      refine iff_of_false not_listed_false fun hx => ?_
      rw [hx.1] at hb
      cases hb
    cases data with
    | copy d => exact ⟨.refl p s, .bool false, rfl, hgone⟩
    | live =>
      refine ⟨.unSuspendPlan s p none, .bool false, ?_, hgone⟩
      obtain ⟨R, hR⟩ := Dict.mem_iff.1 hp
      unfold unSuspendData Store.unSuspendPlan
      rw [readData, readData, hR]
      exact congrArg (Option.getD · P) (Dict.get?_set_self _ _ _)
  · rename_i hkeep
    refine ⟨.refl p s, _, rfl, fun x => ?_⟩
    constructor
    · intro hx
      refine ⟨?_, hx⟩
      have htruthy : (s.readData p P data).suspended.truthy = true := hx.1
      by_contra hb
      rw [Bool.not_eq_true] at hb
      exact hkeep (by rw [htruthy, hb]; rfl)
    · exact fun hx => hx.2

/-- In the end the record is stored. -/
theorem writeData_spec (hp : p ∈ s.plans) (data : PlanData) : Beside p s (s.writeData p data) ∧
    (s.writeData p data).plans.get? p = some (s.readData p P data) := by
  cases data with
  | copy d => exact ⟨.setPlan hp d, Dict.get?_set_self _ _ _⟩
  | live =>
    obtain ⟨R, hR⟩ := Dict.mem_iff.1 hp
    refine ⟨.refl p s, ?_⟩
    rw [writeData, readData, hR]
    rfl

/-- The steps of an update that succeeds. -/
theorem updatePlan_ok {data : PlanData} (hP : s.plans.get? p = some P) (h : s.updatePlan p data = (s', .ok none)) :
    ∃ l s₁ s₂ s₃ data₂ data₃ b₂ b₃, s.getPlansByPlanName p deepest = .ok l ∧
      s.lowerSubPlans (s.readData p P data).planMaximums l = (s₁, .ok ()) ∧
      suspendOver userMeasure "maxUserCount" p P s₁ data = ((s₂, data₂), .ok b₂) ∧
      suspendOver domainMeasure "maxDomainCount" p P s₂ data₂ = ((s₃, data₃), .ok b₃) ∧
      s' = (if (s₃.readData p P data₃).suspended.truthy && !(b₂ || b₃) then s₃.unSuspendData p data₃
          else (s₃, data₃)).1.writeData p
        (if (s₃.readData p P data₃).suspended.truthy && !(b₂ || b₃) then s₃.unSuspendData p data₃
          else (s₃, data₃)).2 := by
  unfold updatePlan at h
  rw [hP] at h
  dsimp only at h
  split at h
  · cases h
  · split at h
    · cases h
    · split at h
      · cases h
      · rcases guarded_cases h with ⟨_, hr⟩ | ⟨_, h⟩
        · exact absurd rfl hr
        · split at h
          · cases h
          · rename_i l hl
            split at h
            · cases h
            · rename_i s₁ hlower
              split at h
              · cases h
              · rename_i s₂ data₂ b₂ husers
                split at h
                · cases h
                · rename_i s₃ data₃ b₃ hdomains
                  cases h
                  exact ⟨l, s₁, s₂, s₃, data₂, data₃, b₂, b₃, hl, hlower, husers, hdomains, rfl⟩

/-- Behind the new maximums the plan has more than the data allow. -/
def Exceeded (s : Store) (m : Measure) (p : String) (D : Plan) : Prop :=
  (m.limit D).lt (.ofNat (s.countLeft m p D.planMaximums)) = true

/-- What an update does. -/
structure Updated (s s' : Store) (p : String) (P D : Plan) : Prop where
  own : ∃ v, s'.plans.get? p = some { D with suspended := v } ∧
    ∀ x, Listed v x ↔ (s.Exceeded userMeasure p D ∨ s.Exceeded domainMeasure p D) ∧
      (Listed D.suspended x ∨ (s.Exceeded userMeasure p D ∧ x = "maxUserCount") ∨
        (s.Exceeded domainMeasure p D ∧ x = "maxDomainCount"))
  others : ∀ q, q ≠ p → ∀ r, s'.PlanFor q r ↔
    (q ∈ s.plansBelow p ∧ s.Over D.planMaximums q r) ∨ s.PlanFor q r
  total : ∀ m, s'.total m s'.fuel P = .ok (s.countLeft m p D.planMaximums)

theorem updatePlan_updated (h : Orderly s) (hr : s.Ranked) (hP : s.plans.get? p = some P) {data : PlanData}
    (hupd : s.updatePlan p data = (s', .ok none)) : Updated s s' p P (s.readData p P data) := by
  obtain ⟨l, s₁, s₂, s₃, data₂, data₃, b₂, b₃, hl, hlower, husers, hdomains, hs'⟩ := updatePlan_ok hP hupd
  have hbelow : s.plansBelow p = l := by
    rw [plansBelow, hl]
  obtain ⟨t, hrun, hlowered⟩ := h.lowerSubPlans
    (fun q hq => (under_of_getPlansByPlanName hl hq).mem_plans h.integrity.linked) (s.readData p P data).planMaximums
  cases hlower.symm.trans hrun
  have hP₁ : s₁.plans.get? p = some P := by
    rw [hlowered.untouched p fun r hwhy => (under_of_getPlansByPlanName hl hwhy.1).ne hr rfl, hP]
  have hp₁ : p ∈ s₁.plans := Dict.mem_of_get? hP₁
  have hread : s₁.readData p P data = s.readData p P data := by
    cases data with
    | copy d => rfl
    | live => rw [readData, readData, hP₁, hP]
  obtain ⟨rank, hrank⟩ := id hr
  have hrank₁ : ∀ x y, y ∈ s₁.subs x → rank x < rank y := by
    intro x y hy
    rw [subs, funext hlowered.same.seats, funext hlowered.same.ownPlans] at hy
    exact hrank x y hy
  have htotal : ∀ {t : Store}, Beside p s₁ t → ∀ m,
      t.total m t.fuel P = .ok (s.countLeft m p (s.readData p P data).planMaximums) := by
    intro t ht m
    rw [ht.fuel, ht.total hrank₁ m hP₁ (Nat.le_refl _)]
    exact hlowered.total hbelow hr hP₁ m
  obtain ⟨n₂, hn₂, hb₂, step₂⟩ := suspendOver_ok husers
  obtain ⟨n₃, hn₃, hb₃, step₃⟩ := suspendOver_ok hdomains
  cases (htotal (.refl p s₁) userMeasure).symm.trans hn₂
  cases (htotal step₂.beside domainMeasure).symm.trans hn₃
  rw [hread] at hb₂
  have hexceeded₂ : b₂ = true ↔ s.Exceeded userMeasure p (s.readData p P data) := by
    rw [hb₂]
    exact Iff.rfl
  have hexceeded₃ : b₃ = true ↔ s.Exceeded domainMeasure p (s.readData p P data) := by
    obtain ⟨v₂, hv₂, _⟩ := step₂.value
    rw [hb₃, hv₂, hread]
    exact Iff.rfl
  have hp₃ : p ∈ s₃.plans := step₃.beside.mem_plans.2 (step₂.beside.mem_plans.2 hp₁)
  have step := (step₂.trans step₃).trans (unSuspendData_spec hp₃ data₃ (b₂ || b₃))
  obtain ⟨v, hv, v₃, ⟨v₂, hlisted₂, hlisted₃⟩, hlisted₄⟩ := step.value
  obtain ⟨hbeside, hget⟩ := writeData_spec (P := P) (step.beside.mem_plans.2 hp₁)
    (if (s₃.readData p P data₃).suspended.truthy && !(b₂ || b₃) then s₃.unSuspendData p data₃ else (s₃, data₃)).2
  have hall : Beside p s₁ s' := hs' ▸ step.beside.trans hbeside
  rw [hread] at hv hlisted₂
  refine ⟨⟨v, ?_, fun x => ?_⟩, fun q hq r => ?_, htotal hall⟩
  · rw [hs', hget, hv]
  · rw [hlisted₄, hlisted₃, hlisted₂, hexceeded₂, hexceeded₃, Bool.or_eq_true, hexceeded₂, hexceeded₃, or_assoc]
  · rw [hall.planFor hq, hlowered.reasons, hbelow]

/-- A plan is suspended for its counts just when they are exceeded, for other reasons just as before,
and every plan below for what it has too much of. -/
structure OwnSuspensions (s s' : Store) (p : String) (P D : Plan) : Prop where
  users : ∃ n, s'.totalActiveUsers P = .ok n ∧
    (s'.PlanFor p "maxUserCount" ↔ D.maxUserCount.lt (.ofNat n) = true)
  domains : ∃ n, s'.totalActiveDomains P = .ok n ∧
    (s'.PlanFor p "maxDomainCount" ↔ D.maxDomainCount.lt (.ofNat n) = true)
  others : ∀ r, r ≠ "maxUserCount" → r ≠ "maxDomainCount" → (s'.PlanFor p r ↔ s.PlanFor p r)
  below : ∀ q f, s.Under p q → s.Over D.planMaximums q f → s'.PlanFor q f

/-- A plan that was not suspended for a field in `s`, and does not have too much of it in `s₁` for
the new maximums, is not suspended for it behind their update. -/
def LiftsAgain (s s₁ s' : Store) (p : String) (max_new : Obj) : Prop :=
  ∀ q f, s₁.Under p q → ¬s.PlanFor q f → f ∈ max_new → ¬s₁.Over max_new q f → ¬s'.PlanFor q f

/-- Old reasons do not stand in the way of an update. -/
structure OnlyOwn (s : Store) (p : String) (D : Plan) : Prop where
  users : s.Exceeded domainMeasure p D → ¬s.Exceeded userMeasure p D → ¬Listed D.suspended "maxUserCount"
  domains : s.Exceeded userMeasure p D → ¬s.Exceeded domainMeasure p D → ¬Listed D.suspended "maxDomainCount"
  kept : s.Exceeded userMeasure p D ∨ s.Exceeded domainMeasure p D →
    ∀ r, r ≠ "maxUserCount" → r ≠ "maxDomainCount" → (Listed D.suspended r ↔ s.PlanFor p r)
  cleared : ¬(s.Exceeded userMeasure p D ∨ s.Exceeded domainMeasure p D) →
    ∀ r, r ≠ "maxUserCount" → r ≠ "maxDomainCount" → ¬s.PlanFor p r
  met : ∀ q f, s.Under p q → s.Over D.planMaximums q f → q ∈ s.plansBelow p ∨ s.PlanFor q f

/-- No plan was suspended for a field of which it does not have too much any more. -/
def NothingToLift (s s₁ : Store) (p : String) (max_old max_new : Obj) : Prop :=
  ∀ q f, s₁.Under p q → ¬s.PlanFor q f → f ∈ max_new → ¬s₁.Over max_new q f →
    ¬(q ∈ s.plansBelow p ∧ s.Over max_old q f)

theorem Updated.planFor {D : Plan} (h : Updated s s' p P D) (r : String) : s'.PlanFor p r ↔
    (s.Exceeded userMeasure p D ∨ s.Exceeded domainMeasure p D) ∧
      (Listed D.suspended r ∨ (s.Exceeded userMeasure p D ∧ r = "maxUserCount") ∨
        (s.Exceeded domainMeasure p D ∧ r = "maxDomainCount")) := by
  obtain ⟨v, hv, hlisted⟩ := h.own
  exact (planFor_of_get? hv r).trans (hlisted r)

/-- A count's reason is right unless it is an old one that the other count keeps. -/
theorem reason_iff {own other old : Prop} : ((own ∨ other) ∧ (old ∨ own) ↔ own) ↔ (other → ¬own → ¬old) := by
  by_cases hown : own
  · exact iff_of_true (iff_of_true ⟨.inl hown, .inr hown⟩ hown) fun _ hno => absurd hown hno
  · rw [or_iff_right hown, or_iff_left hown, iff_false_right hown, not_and]
    exact ⟨fun h hother _ => h hother, fun h hother => h hother hown⟩

theorem Updated.users_iff {D : Plan} (h : Updated s s' p P D) :
    (s'.PlanFor p "maxUserCount" ↔ s.Exceeded userMeasure p D) ↔
      (s.Exceeded domainMeasure p D → ¬s.Exceeded userMeasure p D → ¬Listed D.suspended "maxUserCount") := by
  have hother : ¬(s.Exceeded domainMeasure p D ∧ "maxUserCount" = "maxDomainCount") := fun he => absurd he.2 (by decide)
  rw [← reason_iff, h.planFor, and_iff_left rfl, or_iff_left hother]

theorem Updated.domains_iff {D : Plan} (h : Updated s s' p P D) :
    (s'.PlanFor p "maxDomainCount" ↔ s.Exceeded domainMeasure p D) ↔
      (s.Exceeded userMeasure p D → ¬s.Exceeded domainMeasure p D → ¬Listed D.suspended "maxDomainCount") := by
  have hother : ¬(s.Exceeded userMeasure p D ∧ "maxDomainCount" = "maxUserCount") := fun he => absurd he.2 (by decide)
  rw [← reason_iff, h.planFor, and_iff_left rfl, or_iff_right hother, or_comm (a := s.Exceeded userMeasure p D)]

/-- Other reasons are kept only together with a new one. -/
theorem Updated.planFor_other {D : Plan} (h : Updated s s' p P D) {r : String} (hu : r ≠ "maxUserCount")
    (hd : r ≠ "maxDomainCount") : s'.PlanFor p r ↔
      (s.Exceeded userMeasure p D ∨ s.Exceeded domainMeasure p D) ∧ Listed D.suspended r := by
  refine (h.planFor r).trans (and_congr_right fun _ => or_iff_left ?_)
  rintro (he | he)
  · exact hu he.2
  · exact hd he.2

theorem Updated.ownSuspensions_iff {D : Plan} (h : Updated s s' p P D) (hr : s.Ranked) :
    OwnSuspensions s s' p P D ↔ OnlyOwn s p D := by
  have husers : s'.totalActiveUsers P = .ok (s.countLeft userMeasure p D.planMaximums) := h.total userMeasure
  have hdomains : s'.totalActiveDomains P = .ok (s.countLeft domainMeasure p D.planMaximums) := h.total domainMeasure
  constructor
  · intro hown
    refine ⟨?_, ?_, fun hany r hu hd => ?_, fun hnone r hu hd hbefore => ?_, fun q f hq hover => ?_⟩
    · apply h.users_iff.1
      obtain ⟨n, hn, hiff⟩ := hown.users
      cases husers.symm.trans hn
      exact hiff
    · apply h.domains_iff.1
      obtain ⟨n, hn, hiff⟩ := hown.domains
      cases hdomains.symm.trans hn
      exact hiff
    · have hsame := hown.others r hu hd
      rw [h.planFor_other hu hd, and_iff_right hany] at hsame
      exact hsame
    · exact hnone ((h.planFor_other hu hd).1 ((hown.others r hu hd).2 hbefore)).1
    · rcases (h.others q (hq.ne hr) f).1 (hown.below q f hq hover) with hmet | hold
      · exact .inl hmet.1
      · exact .inr hold
  · intro hcond
    refine ⟨⟨_, husers, h.users_iff.2 hcond.users⟩, ⟨_, hdomains, h.domains_iff.2 hcond.domains⟩,
      fun r hu hd => ?_, fun q f hq hover => ?_⟩
    · rw [h.planFor_other hu hd]
      by_cases hany : s.Exceeded userMeasure p D ∨ s.Exceeded domainMeasure p D
      · rw [and_iff_right hany]
        exact hcond.kept hany r hu hd
      · exact iff_of_false (fun he => hany he.1) (hcond.cleared hany r hu hd)
    · exact (h.others q (hq.ne hr) f).2 ((hcond.met q f hq hover).imp_left fun hmet => ⟨hmet, hover⟩)

/-- An update of a plan recomputes just its own suspensions if old reasons do not stand in the way,
and a later one lifts what the first has suspended only if that is nothing. -/
theorem own_suspensions_iff (h : Orderly s) (hr : s.Ranked) (hP : s.plans.get? p = some P) {data : PlanData}
    (hupd : s.updatePlan p data = (s₁, .ok none)) :
    (OwnSuspensions s s₁ p P (s.readData p P data) ↔ OnlyOwn s p (s.readData p P data)) ∧
      ∀ (Q : Plan) (later : PlanData) (s' : Store), Orderly (s₁.setPlan p Q) → (s₁.setPlan p Q).Ranked →
        (s₁.setPlan p Q).updatePlan p later = (s', .ok none) →
        (LiftsAgain s (s₁.setPlan p Q) s' p ((s₁.setPlan p Q).readData p Q later).planMaximums ↔
          NothingToLift s (s₁.setPlan p Q) p (s.readData p P data).planMaximums
            ((s₁.setPlan p Q).readData p Q later).planMaximums) := by
  have hfirst := updatePlan_updated h hr hP hupd
  refine ⟨hfirst.ownSuspensions_iff hr, fun Q later s' hQ hrQ hlater => ?_⟩
  have hsecond := updatePlan_updated hQ hrQ (Dict.get?_set_self _ _ _) hlater
  have hp₁ : p ∈ s₁.plans := by
    obtain ⟨v, hv, _⟩ := hfirst.own
    exact Dict.mem_of_get? hv
  have hset : Beside p s₁ (s₁.setPlan p Q) := .setPlan hp₁ Q
  apply forall₂_congr
  intro q f
  refine forall_congr' fun hq => forall_congr' fun hold => forall_congr' fun _ => forall_congr' fun hover => ?_
  have hne := hq.ne hrQ
  rw [hsecond.others q hne, hset.planFor hne, hfirst.others q hne, or_iff_left hold, or_iff_right fun he => hover he.2]

/-- Among numbers of things, to have too much is to have more. -/
theorem over_iff_lt {Q : Plan} {max_new : Obj} {own new : Nat} (hQ : s.plans.get? q = some Q)
    (hown : prop Q.planMaximums o = .ofNat own) (hnew : max_new.get? o = some (.ofNat new)) :
    s.Over max_new q o ↔ new < own := by
  have hmuch : s.tooMuch o (.ofNat new) q = ((JsVal.ofNat own).truthy && Plan.beyond (.ofNat own) (.ofNat new)) := by
    rw [tooMuch, hQ, Option.map_some, hown]
    rfl
  have hlt : s.Over max_new q o ↔ s.tooMuch o (.ofNat new) q = true := by
    constructor
    · rintro ⟨v, hv, hmuch⟩
      cases hnew.symm.trans hv
      exact hmuch
    · exact fun hmuch => ⟨_, hnew, hmuch⟩
  rw [hlt, hmuch, Plan.beyond, Bool.and_eq_true, Bool.and_eq_true, Bool.and_eq_true]
  constructor
  · rintro ⟨_, ⟨hless, _⟩, _⟩
    exact Int.ofNat_lt.1 (of_decide_eq_true hless)
  · intro hless
    have hpos : own ≠ 0 := by omega
    have hcount : ∀ n : Nat, (!(JsVal.ofNat n).strictEq defaultMaximum) = true := by
      intro n
      rw [Bool.not_eq_true', ← Bool.not_eq_true, Plan.strictEq_defaultMaximum]
      intro he
      have hn := JsNum.int.inj (JsVal.num.inj he)
      omega
    exact ⟨decide_eq_true (Int.natCast_ne_zero.2 hpos), ⟨decide_eq_true (Int.ofNat_lt.2 hless), hcount own⟩, hcount new⟩

theorem consistent_sample : Consistent (installed.run sampleCalls) := by
  apply consistent_of_adds
  apply Runs.Reached.start.run
  exact ⟨⟨by decide, by decide, plainOpts_empty⟩,
    ⟨by decide, by decide, plainOpts_planOpts 5 5, wholeLimits_planOpts 5 5⟩,
    ⟨by decide, by decide, plainOpts_empty⟩, plainOpts_empty, trivial⟩

/-- Gold has two users, is suspended for its disk space and has silver below it. -/
def tiers : Store :=
  installed.run [.addUser unlimitedPlanName "ann" .empty, .addPlan (some "ann") "gold" (memoryOpts 300),
    .addUser "gold" "bob" .empty, .addUser "gold" "dave" .empty, .addPlan (some "bob") "silver" (memoryOpts 200),
    .addUser "silver" "carl" .empty, .suspendPlan "gold" "plan_disk_space"]

def gold : Plan := (tiers.plans.get? "gold").get rfl

/-- The plan with room for one user, and with less memory than silver has. -/
def loweredGold : Plan :=
  { gold with maxUserCount := .num (.int 1), planMaximums := Dict.ofList [("plan_memory", .num (.int 100))] }

def loweredTiers : Store := (tiers.updatePlan "gold" (.copy loweredGold)).1

def goldLowered : Plan := (loweredTiers.plans.get? "gold").get rfl

/-- The plan with its old maximums. -/
def raisedGold : Plan := { goldLowered with planMaximums := gold.planMaximums }

theorem gold_eq : tiers.plans.get? "gold" = some gold := (Option.some_get _).symm

theorem goldLowered_eq : loweredTiers.plans.get? "gold" = some goldLowered := (Option.some_get _).symm

theorem loweredTiers_eq : tiers.updatePlan "gold" (.copy loweredGold) = (loweredTiers, .ok none) :=
  Prod.ext rfl (by decide +kernel)

def raisedTiers : Store := ((loweredTiers.setPlan "gold" goldLowered).updatePlan "gold" (.copy raisedGold)).1

theorem raisedTiers_eq :
    (loweredTiers.setPlan "gold" goldLowered).updatePlan "gold" (.copy raisedGold) = (raisedTiers, .ok none) :=
  Prod.ext rfl (by decide +kernel)

theorem integrity_tiers : Integrity tiers := by
  have hadds : Reached (fun _ c => Adds c) (installed.run [.addUser unlimitedPlanName "ann" .empty,
      .addPlan (some "ann") "gold" (memoryOpts 300), .addUser "gold" "bob" .empty, .addUser "gold" "dave" .empty,
      .addPlan (some "bob") "silver" (memoryOpts 200), .addUser "silver" "carl" .empty]) := by
    apply Runs.Reached.start.run
    exact ⟨⟨by decide, by decide, plainOpts_empty⟩,
      ⟨by decide, by decide, plainOpts_memoryOpts 300, wholeLimits_memoryOpts 300⟩,
      ⟨by decide, by decide, plainOpts_empty⟩, ⟨by decide, by decide, plainOpts_empty⟩,
      ⟨by decide, by decide, plainOpts_memoryOpts 200, wholeLimits_memoryOpts 200⟩,
      ⟨by decide, by decide, plainOpts_empty⟩, trivial⟩
  exact (suspendPlan_resuspended _ "gold" "plan_disk_space").integrity (consistent_of_adds hadds).integrity

theorem integrity_loweredTiers : Integrity loweredTiers := by
  refine integrity_tiers.exec (c := .updatePlan "gold" (.copy loweredGold)) fun plan _ _ hp _ _ _ _ u => ?_
  obtain rfl : gold = plan := Option.some.inj (gold_eq.symm.trans hp)
  exact Iff.rfl

theorem ranked_of_all (rank : String → Nat) (h : ∀ p ∈ s.plans.keys, ∀ q ∈ s.subs p, rank p < rank q) : s.Ranked := by
  refine ⟨rank, fun p q hq => ?_⟩
  obtain ⟨u, hu, -⟩ := mem_subs.1 hq
  exact h p (Dict.mem_keys.2 (mem_plans_of_seat hu)) q hq

/-- The plans of the sample from above. -/
def tierOf (p : String) : Nat := [unlimitedPlanName, "gold", "silver"].idxOf p

/-- Reasons of which none is repeated. -/
theorem isReasons_arr {l : List String} (h : l.Nodup) : IsReasons (.arr (l.map .str)) := by
  intro _
  refine ⟨l.map .str, rfl, h.map fun a b hab => JsVal.str.inj hab⟩

/-- A store whose lists of reasons are those given, and whose users are not suspended. -/
theorem orderly_of_lists (h : Integrity s) (ls : List (String × List String)) (hnodup : ∀ e ∈ ls, e.2.Nodup)
    (hnames : ∀ e ∈ s.plans.entries, e.2.name = e.1)
    (hlists : s.plans.entries.map (fun e => (e.1, if e.2.suspended.truthy then e.2.suspended else .arr [])) =
      ls.map fun e => (e.1, .arr (e.2.map .str)))
    (husers : ∀ e ∈ s.users.entries, e.2.name = e.1 ∧ e.2.suspended.truthy = false) : Orderly s where
  integrity := h
  planName p P hP := hnames (p, P) (Dict.get?_eq_some.1 hP)
  userName u U hU := (husers (u, U) (Dict.get?_eq_some.1 hU)).1
  planReasons p P hP := by
    have hmem : (p, if P.suspended.truthy then P.suspended else .arr []) ∈
        s.plans.entries.map fun e => (e.1, if e.2.suspended.truthy then e.2.suspended else .arr []) :=
      List.mem_map_of_mem (f := fun e : String × Plan => (e.1, if e.2.suspended.truthy then e.2.suspended else .arr []))
        (Dict.get?_eq_some.1 hP)
    rw [hlists] at hmem
    obtain ⟨e, he, heq⟩ := List.mem_map.1 hmem
    intro ht
    have hlist := (Prod.mk.inj heq).2
    rw [if_pos ht] at hlist
    rw [← hlist] at ht ⊢
    exact isReasons_arr (hnodup e he) ht
  userReasons u U hU ht := by
    rw [(husers (u, U) (Dict.get?_eq_some.1 hU)).2] at ht
    cases ht

theorem orderly_tiers : Orderly tiers :=
  orderly_of_lists integrity_tiers [(unlimitedPlanName, []), ("gold", ["plan_disk_space"]), ("silver", [])] (by decide)
    (by decide) rfl (by decide)

theorem orderly_raising : Orderly (loweredTiers.setPlan "gold" goldLowered) := by
  apply orderly_of_lists (integrity_loweredTiers.setPlan goldLowered_eq rfl fun _ => Iff.rfl)
    [(unlimitedPlanName, []), ("gold", ["plan_disk_space", "maxUserCount"]), ("silver", ["plan_memory"])]
  · decide
  · decide
  · rfl
  · decide

/-- Below gold there is silver, and nothing else. -/
theorem under_gold {s : Store} (hgold : s.subs "gold" = ["silver"]) (hsilver : s.subs "silver" = []) (h : s.Under "gold" q) :
    q = "silver" := by
  obtain ⟨x, hx, hq⟩ := Relation.TransGen.head'_iff.1 h
  rw [hgold] at hx
  obtain rfl := List.mem_singleton.1 hx
  rcases Relation.ReflTransGen.cases_head hq with rfl | ⟨y, hy, -⟩
  · rfl
  · rw [hsilver] at hy
    cases hy

/-- Gold loses room for one of its users and silver is suspended for its memory; when gold has its maximums again
silver stays suspended. -/
theorem own_suspensions_sample :
    OwnSuspensions tiers loweredTiers "gold" gold loweredGold ∧ loweredTiers.PlanFor "silver" "plan_memory" ∧
      ¬LiftsAgain tiers (loweredTiers.setPlan "gold" goldLowered) raisedTiers "gold" gold.planMaximums := by
  have hranked : tiers.Ranked := ranked_of_all tierOf (by decide)
  have hranked' : (loweredTiers.setPlan "gold" goldLowered).Ranked := ranked_of_all tierOf (by decide)
  obtain ⟨hown, hlater⟩ := own_suspensions_iff orderly_tiers hranked gold_eq loweredTiers_eq
  have hexceeded : tiers.Exceeded userMeasure "gold" loweredGold := by
    unfold Exceeded
    decide +kernel
  have hover : tiers.Over loweredGold.planMaximums "silver" "plan_memory" := ⟨.num (.int 100), rfl, rfl⟩
  have hmet : "silver" ∈ tiers.plansBelow "gold" := by decide +kernel
  have hsuspensions : OwnSuspensions tiers loweredTiers "gold" gold loweredGold := by
    refine hown.2 ⟨fun _ hno => absurd hexceeded hno, fun _ _ hlisted => ?_, fun _ r _ _ => ?_, fun hno => ?_,
      fun q f hq _ => .inl ?_⟩
    · obtain ⟨-, l, hl, hin⟩ := hlisted
      obtain rfl : [JsVal.str "plan_disk_space"] = l := Except.ok.inj hl
      exact absurd (JsVal.str.inj (List.mem_singleton.1 hin)) (by decide)
    · exact (planFor_of_get? gold_eq r).symm
    · exact absurd (.inl hexceeded) hno
    · rw [under_gold rfl rfl hq]
      exact hmet
  have hunder : tiers.Under "gold" "silver" := .single (by decide)
  have hunder' : (loweredTiers.setPlan "gold" goldLowered).Under "gold" "silver" := .single (by decide)
  have hiff := hlater goldLowered (.copy raisedGold) raisedTiers orderly_raising hranked' raisedTiers_eq
  refine ⟨hsuspensions, hsuspensions.below _ _ hunder hover, mt hiff.1 fun hlift => ?_⟩
  refine hlift "silver" "plan_memory" hunder' ?_ (by decide) ?_ ⟨hmet, hover⟩
  · rintro ⟨P, hP, htruthy, -⟩
    have hfree : (tiers.plans.get? "silver").map (fun P => P.suspended.truthy) = some false := rfl
    rw [hP] at hfree
    have hoff : P.suspended.truthy = false := Option.some.inj hfree
    rw [hoff] at htruthy
    cases htruthy
  · rintro ⟨v, hv, hmuch⟩
    obtain rfl : JsVal.num (.int 300) = v := Option.some.inj hv
    revert hmuch
    decide +kernel

/-- A plan that is over its disk space is unsuspended by an update that changes nothing. -/
theorem disk_space_forgotten :
    ¬∀ (s s' : Store) (p : String) (P : Plan) (data : PlanData), Orderly s → s.Ranked → s.plans.get? p = some P →
      s.updatePlan p data = (s', .ok none) → OwnSuspensions s s' p P (s.readData p P data) := by
  intro h
  have hgold : "gold" ∈ (installed.run sampleCalls).plans := by decide
  obtain ⟨s, hrun, hs, husers, hplans⟩ := orderly_sample.suspendPlan hgold "plan_disk_space"
  have hsame := suspendPlan_resuspended (installed.run sampleCalls) "gold" "plan_disk_space"
  rw [hrun] at hsame
  have hranked : s.Ranked := by
    obtain ⟨rank, hrank⟩ := consistent_sample.sound.ranked
    refine ⟨rank, fun x y hy => hrank x y ?_⟩
    rw [subs, funext hsame.seats, funext hsame.ownPlans] at hy
    exact hy
  obtain ⟨P, hP, hlisted⟩ := (hplans "gold" "plan_disk_space").2 (.inl ⟨rfl, rfl⟩)
  have hs' : s = ((installed.run sampleCalls).suspendPlan "gold" "plan_disk_space").1 := by rw [hrun]
  have hupd : s.updatePlan "gold" .live = ((s.updatePlan "gold" .live).1, .ok none) := by
    refine Prod.ext rfl ?_
    rw [hs']
    decide +kernel
  have hown := (h s _ "gold" P .live hs hranked hP hupd).others "plan_disk_space" (by decide) (by decide)
  obtain ⟨Q, hQ, htruthy, _⟩ := hown.2 ⟨P, hP, hlisted⟩
  have hfree : ∀ e ∈ (s.updatePlan "gold" .live).1.plans.entries, e.2.suspended.truthy = false := by
    rw [hs']
    decide +kernel
  rw [hfree ("gold", Q) (Dict.get?_eq_some.1 hQ)] at htruthy
  cases htruthy

end Store
end JXPanel

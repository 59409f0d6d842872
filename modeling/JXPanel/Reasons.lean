import JXPanel.Removal
import JXPanel.Suspension

namespace JXPanel
set_option autoImplicit true

/-- A record is suspended for a reason. -/
def Listed (suspended : JsVal) (o : String) : Prop :=
  suspended.truthy = true ∧ ∃ l, reasons suspended = .ok l ∧ JsVal.str o ∈ l

/-- Reasons are kept as a set of names, or not at all. -/
def IsReasons (suspended : JsVal) : Prop :=
  suspended.truthy = true → ∃ l, reasons suspended = .ok l ∧ l.Nodup

section Values
variable {v v' : JsVal} {o r : String} {l : List JsVal}

theorem strictEq_str : JsVal.strictEq (.str o) v = true ↔ v = .str o := by
  cases v with
  | str t =>
    rw [JsVal.strictEq, decide_eq_true_iff, JsVal.str.injEq]
    exact eq_comm
  | _ =>
    constructor
    · intro h
      cases h
    · intro h
      cases h

theorem any_strictEq : l.any (JsVal.strictEq (.str o)) = true ↔ JsVal.str o ∈ l := by
  rw [List.any_eq_true]
  constructor
  · rintro ⟨v, hv, he⟩
    rw [← strictEq_str.1 he]
    exact hv
  · intro h
    exact ⟨.str o, h, strictEq_str.2 rfl⟩

theorem listed_arr : Listed (.arr l) r ↔ JsVal.str r ∈ l := by
  constructor
  · rintro ⟨-, l', hl, hr⟩
    cases hl
    exact hr
  · exact fun h => ⟨rfl, l, rfl, h⟩

theorem not_listed_false : ¬Listed (.bool false) r := by
  rintro ⟨ht, -⟩
  cases ht

theorem listed_of_reasons (ht : v.truthy = true) (hl : reasons v = .ok l) :
    Listed v r ↔ JsVal.str r ∈ l := by
  constructor
  · rintro ⟨-, l', hl', hr⟩
    rw [hl] at hl'
    cases hl'
    exact hr
  · exact fun h => ⟨ht, l, hl, h⟩

/-- A reason is added to the ones there are. -/
theorem addReason_spec (h : IsReasons v) (o : String) : ∃ v', addReason v o = .ok v' ∧ IsReasons v' ∧
    ∀ r, Listed v' r ↔ r = o ∨ Listed v r := by
  have hold : ∃ l, reasons (if v.truthy then v else .arr []) = .ok l ∧ l.Nodup ∧
      ∀ r, Listed v r ↔ JsVal.str r ∈ l := by
    cases ht : v.truthy with
    | false =>
      refine ⟨[], rfl, List.nodup_nil, fun r => ?_⟩
      constructor
      · rintro ⟨ht', -⟩
        rw [ht] at ht'
        cases ht'
      · exact fun hr => absurd hr List.not_mem_nil
    | true =>
      obtain ⟨l, hl, hnodup⟩ := h ht
      exact ⟨l, hl, hnodup, fun r => listed_of_reasons ht hl⟩
  obtain ⟨l, hl, hnodup, hlisted⟩ := hold
  rw [addReason, hl]
  by_cases ho : JsVal.str o ∈ l
  · refine ⟨.arr l, ?_, fun _ => ⟨l, rfl, hnodup⟩, fun r => ?_⟩
    · exact congrArg (fun l => Except.ok (JsVal.arr l)) (if_pos (any_strictEq.2 ho))
    · rw [listed_arr, hlisted]
      refine ⟨.inr, fun hr => hr.elim (fun he => he ▸ ho) id⟩
  · refine ⟨.arr (l ++ [.str o]), ?_, fun _ => ⟨l ++ [.str o], rfl, ?_⟩, fun r => ?_⟩
    · exact congrArg (fun l => Except.ok (JsVal.arr l)) (if_neg fun hm => ho (any_strictEq.1 hm))
    · exact List.nodup_append_comm.1 (List.nodup_cons.2 ⟨ho, hnodup⟩)
    · rw [listed_arr, hlisted, List.mem_append, List.mem_singleton, JsVal.str.injEq]
      exact or_comm

theorem dropReason_sublist (o : String) (l : List JsVal) : (dropReason o l).Sublist l := by
  induction l with
  | nil => exact List.Sublist.slnil
  | cons v l ih =>
    rw [dropReason]
    split
    · exact List.sublist_cons_self v l
    · exact ih.cons_cons v

theorem mem_dropReason (hnodup : l.Nodup) : JsVal.str r ∈ dropReason o l ↔ JsVal.str r ∈ l ∧ r ≠ o := by
  induction l with
  | nil => exact ⟨fun h => absurd h List.not_mem_nil, fun h => absurd h.1 List.not_mem_nil⟩
  | cons v l ih =>
    obtain ⟨hv, hnodup⟩ := List.nodup_cons.1 hnodup
    rw [dropReason]
    split
    · rename_i he
      have ho : v = .str o := strictEq_str.1 he
      rw [List.mem_cons, ho, JsVal.str.injEq]
      constructor
      · intro hr
        refine ⟨.inr hr, ?_⟩
        rintro rfl
        exact hv (ho ▸ hr)
      · rintro ⟨he | hr, hne⟩
        · exact absurd he hne
        · exact hr
    · rename_i he
      have ho : v ≠ .str o := fun hv => he (strictEq_str.2 hv)
      rw [List.mem_cons, List.mem_cons, ih hnodup]
      constructor
      · rintro (hr | ⟨hr, hne⟩)
        · refine ⟨.inl hr, ?_⟩
          rintro rfl
          exact ho hr.symm
        · exact ⟨.inr hr, hne⟩
      · rintro ⟨hr | hr, hne⟩
        · exact .inl hr
        · exact .inr ⟨hr, hne⟩

/-- A reason is taken out of the ones there are. Without a name every reason is. -/
theorem removeReason_spec (h : IsReasons v) (o : String) :
    ∃ v', removeReason v (some o) = .ok v' ∧ IsReasons v' ∧ ¬Listed v' o ∧
      (o ≠ "" → ∀ r, r ≠ o → (Listed v' r ↔ Listed v r)) := by
  have hfalse : IsReasons (.bool false) := fun ht => by cases ht
  rw [removeReason]
  by_cases ho : o = ""
  · rw [if_pos ho]
    exact ⟨.bool false, rfl, hfalse, not_listed_false, fun hne => absurd ho hne⟩
  · rw [if_neg ho]
    cases ht : v.truthy with
    | false =>
      refine ⟨v, rfl, h, ?_, fun _ _ _ => Iff.rfl⟩
      rintro ⟨ht', -⟩
      rw [ht] at ht'
      cases ht'
    | true =>
      obtain ⟨l, hl, hnodup⟩ := h ht
      rw [hl]
      have hrest : (dropReason o l).Nodup := hnodup.sublist (dropReason_sublist o l)
      have hgone : JsVal.str o ∉ dropReason o l := fun hm => ((mem_dropReason hnodup).1 hm).2 rfl
      have hkept : ∀ r, r ≠ o → (JsVal.str r ∈ dropReason o l ↔ Listed v r) := by
        intro r hne
        rw [mem_dropReason hnodup, listed_of_reasons ht hl]
        exact and_iff_left hne
      cases hd : dropReason o l with
      | nil =>
        rw [hd] at hkept
        refine ⟨.bool false, by simp [bind, Except.bind, pure, Except.pure, hd], hfalse, not_listed_false,
          fun _ r hne => ?_⟩
        rw [← hkept r hne]
        exact iff_of_false not_listed_false List.not_mem_nil
      | cons w ws =>
        rw [hd] at hrest hgone hkept
        refine ⟨.arr (w :: ws), by simp [bind, Except.bind, pure, Except.pure, hd], fun _ => ⟨_, rfl, hrest⟩, ?_,
          fun _ r hne => ?_⟩
        · rw [listed_arr]
          exact hgone
        · rw [listed_arr]
          exact hkept r hne

end Values

namespace Store

/-- A consistent store whose records carry their own names and are suspended for sets of reasons. -/
structure Orderly (s : Store) : Prop where
  integrity : Integrity s
  planName : ∀ p P, s.plans.get? p = some P → P.name = p
  userName : ∀ u U, s.users.get? u = some U → U.name = u
  planReasons : ∀ p P, s.plans.get? p = some P → IsReasons P.suspended
  userReasons : ∀ u U, s.users.get? u = some U → IsReasons U.suspended

def PlanFor (s : Store) (p r : String) : Prop := ∃ P, s.plans.get? p = some P ∧ Listed P.suspended r

def UserFor (s : Store) (u r : String) : Prop := ∃ U, s.users.get? u = some U ∧ Listed U.suspended r

variable {s s' : Store} {p u o : String} {P : Plan} {U : User} {v : JsVal}

theorem Orderly.writePlan {Q : Plan} (h : Orderly s) (hP : s.plans.get? p = some P) (howner : Q.owner = P.owner)
    (husers : Q.users = P.users) (hname : Q.name = P.name) (hreasons : IsReasons Q.suspended) :
    Orderly (s.setPlan p Q) := by
  have hlinks : Integrity (s.setPlan p Q) := h.integrity.setPlan hP howner fun u => by rw [husers]
  refine ⟨hlinks, ?_, h.userName, ?_, h.userReasons⟩
  · intro q R hR
    rw [Store.setPlan, Dict.get?_set] at hR
    split at hR
    · rename_i hq
      rw [← Option.some.inj hR, hq, hname]
      exact h.planName p P hP
    · exact h.planName q R hR
  · intro q R hR
    rw [Store.setPlan, Dict.get?_set] at hR
    split at hR
    · rw [← Option.some.inj hR]
      exact hreasons
    · exact h.planReasons q R hR

theorem Orderly.setPlan (h : Orderly s) (hP : s.plans.get? p = some P) (hv : IsReasons v) :
    Orderly (s.setPlan p { P with suspended := v }) := h.writePlan hP rfl rfl rfl hv

theorem Orderly.setUser (h : Orderly s) (hU : s.users.get? u = some U) (hv : IsReasons v) :
    Orderly (s.setUser u { U with suspended := v }) := by
  have hsame : Resuspended s (s.setUser u { U with suspended := v }) := .setUser hU rfl
  refine ⟨hsame.integrity h.integrity, h.planName, ?_, h.planReasons, ?_⟩
  · intro w W hW
    rw [Store.setUser, Dict.get?_set] at hW
    split at hW
    · rename_i hw
      rw [← Option.some.inj hW, hw]
      exact h.userName u U hU
    · exact h.userName w W hW
  · intro w W hW
    rw [Store.setUser, Dict.get?_set] at hW
    split at hW
    · rw [← Option.some.inj hW]
      exact hv
    · exact h.userReasons w W hW

theorem planFor_setPlan (q r : String) :
    (s.setPlan p { P with suspended := v }).PlanFor q r ↔
      if q = p then Listed v r else s.PlanFor q r := by
  rw [PlanFor, Store.setPlan, Dict.get?_set]
  split
  · constructor
    · rintro ⟨Q, hQ, hr⟩
      rw [← Option.some.inj hQ] at hr
      exact hr
    · exact fun hr => ⟨_, rfl, hr⟩
  · exact Iff.rfl

theorem userFor_setUser (w r : String) :
    (s.setUser u { U with suspended := v }).UserFor w r ↔
      if w = u then Listed v r else s.UserFor w r := by
  rw [UserFor, Store.setUser, Dict.get?_set]
  split
  · constructor
    · rintro ⟨W, hW, hr⟩
      rw [← Option.some.inj hW] at hr
      exact hr
    · exact fun hr => ⟨_, rfl, hr⟩
  · exact Iff.rfl

theorem planFor_of_get? (hP : s.plans.get? p = some P) (r : String) :
    s.PlanFor p r ↔ Listed P.suspended r := by
  constructor
  · rintro ⟨Q, hQ, hr⟩
    rw [hP] at hQ
    rw [Option.some.inj hQ]
    exact hr
  · exact fun hr => ⟨P, hP, hr⟩

theorem userFor_of_get? (hU : s.users.get? u = some U) (r : String) :
    s.UserFor u r ↔ Listed U.suspended r := by
  constructor
  · rintro ⟨W, hW, hr⟩
    rw [hU] at hW
    rw [Option.some.inj hW]
    exact hr
  · exact fun hr => ⟨U, hU, hr⟩

theorem mem_plans_of_resuspended (h : Resuspended s s') : p ∈ s'.plans ↔ p ∈ s.plans := by
  rw [← Dict.mem_mapVals (f := fun _ => Plan.core), h.plans, Dict.mem_mapVals]

/-- The call-backs of the hosting tools find the records they look for. -/
theorem Orderly.onSuspendPlan (h : Orderly s) (hp : p ∈ s.plans) : s.onSuspendPlan p = .ok () := by
  obtain ⟨domains, hd⟩ : ∃ domains, s.getDomainsByPlanName p 1 = .ok domains := by
    apply Collect.bind_total (h.integrity.linked.getUsersByPlanName_total 1 hp)
    intro users husers
    apply Collect.concatM_total
    intro w hw
    obtain ⟨q, -, hq⟩ := (getUsersByPlanName_mem husers).1 hw
    obtain ⟨W, hW⟩ := Dict.mem_iff.1 (h.integrity.linked.user_mem hq)
    rw [getDomainsByUserName, hW]
    exact ⟨W.domains.keys, rfl⟩
  rw [Store.onSuspendPlan, hd]
  rfl

theorem Orderly.suspendPlan (h : Orderly s) (hp : p ∈ s.plans) (o : String) :
    ∃ s', s.suspendPlan p o = (s', .ok ()) ∧ Orderly s' ∧ s'.users = s.users ∧
      ∀ q r, s'.PlanFor q r ↔ (q = p ∧ r = o) ∨ s.PlanFor q r := by
  obtain ⟨P, hP⟩ := Dict.mem_iff.1 hp
  obtain rfl : P.name = p := h.planName p P hP
  obtain ⟨v, hv, hset, hlisted⟩ := addReason_spec (h.planReasons P.name P hP) o
  have hafter := h.setPlan hP hset
  have hthere : P.name ∈ (s.setPlan P.name { P with suspended := v }).plans := Dict.mem_set.2 (.inl rfl)
  refine ⟨_, ?_, hafter, rfl, fun q r => ?_⟩
  · rw [Store.suspendPlan, hP]
    dsimp only
    rw [hv]
    exact congrArg (Prod.mk _) (hafter.onSuspendPlan hthere)
  · rw [planFor_setPlan]
    split
    · rename_i hq
      rw [hlisted, hq, planFor_of_get? hP]
      exact or_congr_left (and_iff_right rfl).symm
    · rename_i hq
      exact (or_iff_right fun he => hq he.1).symm

theorem Orderly.unSuspendPlan (h : Orderly s) (hp : p ∈ s.plans) (o : String) :
    ∃ s', s.unSuspendPlan p (some o) = (s', .ok ()) ∧ Orderly s' ∧ s'.users = s.users ∧
      ∀ q r, r = o ∨ o ≠ "" → (s'.PlanFor q r ↔ s.PlanFor q r ∧ ¬(q = p ∧ r = o)) := by
  obtain ⟨P, hP⟩ := Dict.mem_iff.1 hp
  obtain ⟨v, hv, hset, hgone, hkept⟩ := removeReason_spec (h.planReasons p P hP) o
  refine ⟨_, ?_, h.setPlan hP hset, rfl, fun q r hr => ?_⟩
  · rw [Store.unSuspendPlan, hP]
    dsimp only
    rw [hv]
  · rw [planFor_setPlan]
    split
    · rename_i hq
      rw [hq, planFor_of_get? hP]
      by_cases hro : r = o
      · rw [hro]
        exact iff_of_false hgone fun hno => hno.2 ⟨rfl, rfl⟩
      · rw [hkept (hr.resolve_left hro) r hro]
        exact (and_iff_left fun he => hro he.2).symm
    · rename_i hq
      exact (and_iff_left fun he => hq he.1).symm

/-- The loop over the plans of a user who is suspended. -/
theorem Orderly.suspendPlans (h : Orderly s) {l : List String} (hl : ∀ p ∈ l, p ∈ s.plans) (o : String) :
    ∃ s', Collect.runAll (fun s i => s.suspendPlan i o) l s = (s', .ok ()) ∧ Orderly s' ∧
      s'.users = s.users ∧ ∀ q r, s'.PlanFor q r ↔ (q ∈ l ∧ r = o) ∨ s.PlanFor q r := by
  induction l generalizing s with
  | nil =>
    refine ⟨s, rfl, h, rfl, fun q r => ?_⟩
    exact (or_iff_right fun he => absurd he.1 List.not_mem_nil).symm
  | cons p l ih =>
    obtain ⟨s₁, hone, h₁, hu₁, hp₁⟩ := h.suspendPlan (hl p List.mem_cons_self) o
    have hsame := suspendPlan_resuspended s p o
    rw [hone] at hsame
    obtain ⟨s', hrun, h', hu', hp'⟩ := ih h₁ fun q hq =>
      (mem_plans_of_resuspended hsame).2 (hl q (List.mem_cons_of_mem p hq))
    refine ⟨s', ?_, h', hu'.trans hu₁, fun q r => ?_⟩
    · rw [Collect.runAll, hone]
      exact hrun
    · rw [hp', hp₁, List.mem_cons, or_and_right]
      rw [or_left_comm, or_assoc]

theorem Orderly.unSuspendPlans (h : Orderly s) {l : List String} (hl : ∀ p ∈ l, p ∈ s.plans) (o : String) :
    ∃ s', Collect.runAll (fun s i => s.unSuspendPlan i (some o)) l s = (s', .ok ()) ∧ Orderly s' ∧
      s'.users = s.users ∧ ∀ q r, r = o ∨ o ≠ "" →
        (s'.PlanFor q r ↔ s.PlanFor q r ∧ ¬(q ∈ l ∧ r = o)) := by
  induction l generalizing s with
  | nil =>
    refine ⟨s, rfl, h, rfl, fun q r _ => ?_⟩
    exact (and_iff_left fun he => absurd he.1 List.not_mem_nil).symm
  | cons p l ih =>
    obtain ⟨s₁, hone, h₁, hu₁, hp₁⟩ := h.unSuspendPlan (hl p List.mem_cons_self) o
    have hsame := unSuspendPlan_resuspended s p (some o)
    rw [hone] at hsame
    obtain ⟨s', hrun, h', hu', hp'⟩ := ih h₁ fun q hq =>
      (mem_plans_of_resuspended hsame).2 (hl q (List.mem_cons_of_mem p hq))
    refine ⟨s', ?_, h', hu'.trans hu₁, fun q r hr => ?_⟩
    · rw [Collect.runAll, hone]
      exact hrun
    · rw [hp' q r hr, hp₁ q r hr, List.mem_cons, or_and_right, not_or, and_assoc]

theorem getPlansByUserName_one (hU : s.users.get? u = some U) :
    s.getPlansByUserName 1 u = .ok U.subPlans.keys := by
  rw [getPlansByUserName, hU]
  exact Collect.concatM_single _

theorem Orderly.own_mem (h : Orderly s) (hU : s.users.get? u = some U) :
    ∀ p ∈ U.subPlans.keys, p ∈ s.plans := by
  intro p hp
  apply mem_plans_of_ownerOf
  exact h.integrity.owned p u (ownPlans_of_get? hU ▸ hp)

theorem Orderly.suspendUser (h : Orderly s) (hu : u ∈ s.users) (o : String) :
    ∃ s', s.suspendUser u o = (s', .ok ()) ∧ Orderly s' ∧
      (∀ w r, s'.UserFor w r ↔ (w = u ∧ r = o) ∨ s.UserFor w r) ∧
      ∀ q r, s'.PlanFor q r ↔ (q ∈ s.ownPlans u ∧ r = o) ∨ s.PlanFor q r := by
  obtain ⟨U, hU⟩ := Dict.mem_iff.1 hu
  obtain rfl : U.name = u := h.userName u U hU
  obtain ⟨v, hv, hset, hlisted⟩ := addReason_spec (h.userReasons U.name U hU) o
  have h₁ := h.setUser hU hset
  have hU₁ : (s.setUser U.name { U with suspended := v }).users.get? U.name = some { U with suspended := v } :=
    Dict.get?_set_self _ _ _
  have hcallback : (s.setUser U.name { U with suspended := v }).onSuspendUser U.name = .ok () := by
    rw [onSuspendUser, getDomainsByUserName, hU₁]
    rfl
  obtain ⟨s', hrun, h', hu', hp'⟩ := h₁.suspendPlans (h.own_mem hU) o
  refine ⟨s', ?_, h', fun w r => ?_, fun q r => ?_⟩
  · rw [Store.suspendUser, hU]
    dsimp only
    rw [hv]
    dsimp only
    rw [hcallback, getPlansByUserName_one hU₁]
    exact hrun
  · rw [UserFor, hu', ← UserFor, userFor_setUser]
    split
    · rename_i hw
      rw [hlisted, hw, userFor_of_get? hU]
      exact or_congr_left (and_iff_right rfl).symm
    · rename_i hw
      exact (or_iff_right fun he => hw he.1).symm
  · rw [hp', ownPlans_of_get? hU]
    exact Iff.rfl

theorem Orderly.unSuspendUser (h : Orderly s) (hu : u ∈ s.users) (o : String) :
    ∃ s', s.unSuspendUser u (some o) = (s', .ok ()) ∧ Orderly s' ∧ ∀ r, r = o ∨ o ≠ "" →
      (∀ w, s'.UserFor w r ↔ s.UserFor w r ∧ ¬(w = u ∧ r = o)) ∧
      ∀ q, s'.PlanFor q r ↔ s.PlanFor q r ∧ ¬(q ∈ s.ownPlans u ∧ r = o) := by
  obtain ⟨U, hU⟩ := Dict.mem_iff.1 hu
  obtain rfl : U.name = u := h.userName u U hU
  obtain ⟨v, hv, hset, hgone, hkept⟩ := removeReason_spec (h.userReasons U.name U hU) o
  have h₁ := h.setUser hU hset
  have hU₁ : (s.setUser U.name { U with suspended := v }).users.get? U.name = some { U with suspended := v } :=
    Dict.get?_set_self _ _ _
  obtain ⟨s', hrun, h', hu', hp'⟩ := h₁.unSuspendPlans (h.own_mem hU) o
  refine ⟨s', ?_, h', fun r hr => ⟨fun w => ?_, fun q => ?_⟩⟩
  · rw [Store.unSuspendUser, hU]
    dsimp only
    rw [hv]
    dsimp only
    rw [getPlansByUserName_one hU₁]
    exact hrun
  · rw [UserFor, hu', ← UserFor, userFor_setUser]
    split
    · rename_i hw
      rw [hw, userFor_of_get? hU]
      by_cases hro : r = o
      · rw [hro]
        exact iff_of_false hgone fun hno => hno.2 ⟨rfl, rfl⟩
      · rw [hkept (hr.resolve_left hro) r hro]
        exact (and_iff_left fun he => hro he.2).symm
    · rename_i hw
      exact (and_iff_left fun he => hw he.1).symm
  · rw [hp' q r hr, ownPlans_of_get? hU]
    exact Iff.rfl

/-- A call of `SuspendUser` or of `UnSuspendUser` for a reason. -/
inductive SuspendCall
  | suspend (user reason : String)
  | unSuspend (user reason : String)

def SuspendCall.reason : SuspendCall → String
  | .suspend _ r => r
  | .unSuspend _ r => r

/-- The store a call leaves, also when there is no such user. -/
def makeCall (s : Store) : SuspendCall → Store
  | .suspend user r => (s.suspendUser user r).1
  | .unSuspend user r => (s.unSuspendUser user (some r)).1

/-- A user is suspended for a reason and no longer, with other calls in between. -/
def between (s : Store) (u r : String) (calls : List SuspendCall) : Store :=
  (calls.foldl makeCall (s.makeCall (.suspend u r))).makeCall (.unSuspend u r)

/-- The reason is where it was. -/
def CancelsOut (s s' : Store) (u r : String) : Prop :=
  (s'.UserFor u r ↔ s.UserFor u r) ∧ ∀ p, s'.PlanFor p r ↔ s.PlanFor p r

theorem makeCall_resuspended (s : Store) (c : SuspendCall) : Resuspended s (s.makeCall c) := by
  cases c with
  | suspend user r => exact suspendUser_resuspended s user r
  | unSuspend user r => exact unSuspendUser_resuspended s user (some r)

theorem mem_users_of_resuspended (h : Resuspended s s') : u ∈ s'.users ↔ u ∈ s.users := by
  rw [← Dict.mem_mapVals (f := fun _ => User.core), h.users, Dict.mem_mapVals]

/-- A call for another reason leaves the reason where it is. -/
theorem Orderly.makeCall (h : Orderly s) (c : SuspendCall) : Orderly (s.makeCall c) ∧
    (c.reason ≠ "" → ∀ r, r ≠ c.reason → CancelsOut s (s.makeCall c) u r) := by
  cases c with
  | suspend user o =>
    by_cases hu : user ∈ s.users
    · obtain ⟨s', hrun, h', hu', hp'⟩ := h.suspendUser hu o
      rw [Store.makeCall, hrun]
      refine ⟨h', fun _ r hne => ⟨?_, fun p => ?_⟩⟩
      · rw [hu']
        exact or_iff_right fun he => hne he.2
      · rw [hp']
        exact or_iff_right fun he => hne he.2
    · have hnone := Dict.get?_eq_none.2 hu
      rw [Store.makeCall, Store.suspendUser, hnone]
      exact ⟨h, fun _ r _ => ⟨Iff.rfl, fun _ => Iff.rfl⟩⟩
  | unSuspend user o =>
    by_cases hu : user ∈ s.users
    · obtain ⟨s', hrun, h', hkept⟩ := h.unSuspendUser hu o
      rw [Store.makeCall, hrun]
      refine ⟨h', fun ho r hne => ⟨?_, fun p => ?_⟩⟩
      · rw [(hkept r (.inr ho)).1]
        exact and_iff_left fun he => hne he.2
      · rw [(hkept r (.inr ho)).2]
        exact and_iff_left fun he => hne he.2
    · have hnone := Dict.get?_eq_none.2 hu
      rw [Store.makeCall, Store.unSuspendUser, hnone]
      exact ⟨h, fun _ r _ => ⟨Iff.rfl, fun _ => Iff.rfl⟩⟩

theorem Orderly.makeCalls (h : Orderly s) {calls : List SuspendCall} {r : String}
    (hc : ∀ c ∈ calls, c.reason ≠ "" ∧ c.reason ≠ r) : Orderly (calls.foldl Store.makeCall s) ∧
      CancelsOut s (calls.foldl Store.makeCall s) u r ∧ Resuspended s (calls.foldl Store.makeCall s) := by
  induction calls generalizing s with
  | nil => exact ⟨h, ⟨Iff.rfl, fun _ => Iff.rfl⟩, .refl s⟩
  | cons c calls ih =>
    obtain ⟨hname, hne⟩ := hc c List.mem_cons_self
    obtain ⟨h₁, hsame⟩ := h.makeCall c (u := u)
    obtain ⟨huser, hplan⟩ := hsame hname r (Ne.symm hne)
    obtain ⟨h', ⟨huser', hplan'⟩, hres⟩ := ih h₁ fun c hm => hc c (List.mem_cons_of_mem _ hm)
    exact ⟨h', ⟨huser'.trans huser, fun p => (hplan' p).trans (hplan p)⟩,
      (makeCall_resuspended s c).trans hres⟩

/-- Suspending a user and no longer cancels out just when none of his plans was suspended for the
reason before. -/
theorem cancels_out_iff (h : Orderly s) (hu : u ∈ s.users) {r : String} (hnew : ¬s.UserFor u r)
    {calls : List SuspendCall} (hc : ∀ c ∈ calls, c.reason ≠ "" ∧ c.reason ≠ r) :
    CancelsOut s (s.between u r calls) u r ↔ ∀ p ∈ s.ownPlans u, ¬s.PlanFor p r := by
  obtain ⟨s₁, hrun₁, h₁, hu₁, hp₁⟩ := h.suspendUser hu r
  obtain ⟨h₂, ⟨-, hp₂⟩, hres₂⟩ := h₁.makeCalls hc (u := u)
  have hres₁ := suspendUser_resuspended s u r
  rw [hrun₁] at hres₁
  have hres := hres₁.trans hres₂
  obtain ⟨s₃, hrun₃, -, hkept⟩ := h₂.unSuspendUser ((mem_users_of_resuspended hres).2 hu) r
  obtain ⟨hu₃, hp₃⟩ := hkept r (.inl rfl)
  have hbetween : s.between u r calls = s₃ := by
    rw [between, Store.makeCall, hrun₁, Store.makeCall, hrun₃]
  have hplans : ∀ p, s₃.PlanFor p r ↔ s.PlanFor p r ∧ p ∉ s.ownPlans u := by
    intro p
    rw [hp₃, hp₂, hp₁, hres.ownPlans]
    tauto
  rw [hbetween]
  constructor
  · intro hcancel p hp hfor
    exact ((hplans p).1 ((hcancel.2 p).2 hfor)).2 hp
  · intro hnone
    refine ⟨?_, fun p => ?_⟩
    · rw [hu₃]
      exact iff_of_false (fun hno => hno.2 ⟨rfl, rfl⟩) hnew
    · rw [hplans]
      exact and_iff_left_of_imp fun hfor hp => hnone p hp hfor

/-- A store whose records carry their names and none of which is suspended. -/
theorem orderly_of_unsuspended (h : Integrity s)
    (hplans : ∀ e ∈ s.plans.entries, e.2.name = e.1 ∧ e.2.suspended.truthy = false)
    (husers : ∀ e ∈ s.users.entries, e.2.name = e.1 ∧ e.2.suspended.truthy = false) : Orderly s where
  integrity := h
  planName p P hP := (hplans (p, P) (Dict.get?_eq_some.1 hP)).1
  userName u U hU := (husers (u, U) (Dict.get?_eq_some.1 hU)).1
  planReasons p P hP ht := by
    rw [(hplans (p, P) (Dict.get?_eq_some.1 hP)).2] at ht
    cases ht
  userReasons u U hU ht := by
    rw [(husers (u, U) (Dict.get?_eq_some.1 hU)).2] at ht
    cases ht

theorem orderly_sample : Orderly (installed.run sampleCalls) := by
  apply orderly_of_unsuspended integrity_sample
  · decide
  · decide

theorem not_suspended_sample (u r : String) : ¬(installed.run sampleCalls).UserFor u r := by
  rintro ⟨U, hU, ht, -⟩
  have hall : ∀ e ∈ (installed.run sampleCalls).users.entries, e.2.suspended.truthy = false := by
    decide
  rw [hall (u, U) (Dict.get?_eq_some.1 hU)] at ht
  cases ht

/-- The owner of the plan is suspended for one reason, and for another one in between. -/
theorem cancels_out_sample :
    CancelsOut (installed.run sampleCalls) ((installed.run sampleCalls).between "ann" "maxUserCount"
      [.suspend "ann" "plan_disk_space", .unSuspend "bob" "plan_disk_space"]) "ann" "maxUserCount" ↔
      ∀ p ∈ (installed.run sampleCalls).ownPlans "ann", ¬(installed.run sampleCalls).PlanFor p "maxUserCount" := by
  apply cancels_out_iff orderly_sample
  · decide
  · exact not_suspended_sample "ann" "maxUserCount"
  · intro c hc
    have hreason : c.reason = "plan_disk_space" := by
      rcases List.mem_cons.1 hc with rfl | hc
      · rfl
      · rw [List.mem_singleton.1 hc]
        rfl
    rw [hreason]
    decide

/-- A plan that was suspended by its own limit is not any more when its owner is unsuspended. -/
theorem suspension_lost :
    ¬∀ (s : Store) (u r : String) (calls : List SuspendCall), Orderly s → u ∈ s.users → ¬s.UserFor u r →
      (∀ c ∈ calls, c.reason ≠ "" ∧ c.reason ≠ r) → CancelsOut s (s.between u r calls) u r := by
  intro h
  have hgold : "gold" ∈ (installed.run sampleCalls).plans := by decide
  obtain ⟨s, hrun, hs, husers, hplans⟩ := orderly_sample.suspendPlan hgold "maxUserCount"
  have hs' : s = ((installed.run sampleCalls).suspendPlan "gold" "maxUserCount").1 := by rw [hrun]
  have hann : "ann" ∈ s.users := by
    rw [husers]
    decide
  have hnew : ¬s.UserFor "ann" "maxUserCount" := by
    rw [UserFor, husers]
    exact not_suspended_sample "ann" "maxUserCount"
  have hcancel := (h s "ann" "maxUserCount" [] hs hann hnew fun c hc => absurd hc List.not_mem_nil).2 "gold"
  have hfor : s.PlanFor "gold" "maxUserCount" := (hplans "gold" "maxUserCount").2 (.inl ⟨rfl, rfl⟩)
  obtain ⟨P, hP, ht, -⟩ := hcancel.2 hfor
  have hgone : ∀ e ∈ (between s "ann" "maxUserCount" []).plans.entries, e.2.suspended.truthy = false := by
    rw [hs']
    decide
  rw [hgone ("gold", P) (Dict.get?_eq_some.1 hP)] at ht
  cases ht

end Store
end JXPanel

import JXPanel.Charges

namespace JXPanel
set_option autoImplicit true

open Hierarchy

theorem addReason_truthy {v w : JsVal} {o : String} (h : addReason v o = .ok w) : w.truthy := by
  rw [addReason] at h
  obtain ⟨l, -, h⟩ := Collect.bind_ok.1 h
  cases h
  rfl

namespace Store

/-- The plan counts another one once that is not suspended. -/
def Above (s : Store) (p a : String) : Prop := ∃ b, Below s.activeSubs a b ∧ p ∈ s.subs b

/-- With all that counts below it, the plan fits into its own limits and those of the plans above. -/
def Fits (s : Store) (p : String) : Prop :=
  ∀ m, Measure.Counts m → ∀ P t, s.plans.get? p = some P → s.total m s.fuel P = .ok t →
    (JsVal.ofNat t).le (m.limit P) ∧
    ∀ a A ta, s.plans.get? a = some A → s.active a → s.Above p a → s.total m s.fuel A = .ok ta →
      (JsVal.ofNat (ta + t)).le (m.limit A)

/-- A call that takes the last reason from a suspended plan. -/
def Activates (s : Store) (p : String) (o : Option String) : Prop :=
  ∃ P v, s.plans.get? p = some P ∧ P.suspended.truthy ∧ removeReason P.suspended o = .ok v ∧
    v.truthy = false

/-- Of the plans that are unsuspended one after the other, each fits when it is its turn. -/
def FitsEach (o : Option String) : List String → Store → Prop
  | [], _ => True
  | i :: is, s => (s.Activates i o → s.Fits i) ∧
      ((s.unSuspendPlan i o).2 = .ok () → FitsEach o is (s.unSuspendPlan i o).1)

variable {s s' : Store}

section Resuspend
variable (h : Sound s)
include h

theorem Sound.setSuspended {P : Plan} {v : JsVal} (hP : s.plans.get? p = some P)
    (hv : P.suspended.truthy → v.truthy) : Sound (s.setPlan p { P with suspended := v }) := by
  apply h.of_lighter
  · have hr : Resuspended s (s.setPlan p { P with suspended := v }) := .setPlan hP rfl
    exact hr.linked h.linked
  · exact lighter_of_setPlan hP ⟨rfl, rfl, rfl, rfl, .refl _⟩ hv

theorem Sound.setUserSuspended {U : User} {v : JsVal} (hU : s.users.get? u = some U) :
    Sound (s.setUser u { U with suspended := v }) := by
  apply h.of_lighter
  · have hr : Resuspended s (s.setUser u { U with suspended := v }) := .setUser hU rfl
    exact hr.linked h.linked
  · exact lighter_of_setUser hU ⟨rfl, rfl, .refl _, Nat.le_refl _⟩

theorem Sound.suspendPlan (name o : String) : Sound (s.suspendPlan name o).1 := by
  rw [Store.suspendPlan]
  cases hP : s.plans.get? name with
  | none => exact h
  | some P =>
    dsimp only
    cases hv : addReason P.suspended o with
    | error f => exact h
    | ok v => exact h.setSuspended hP fun _ => addReason_truthy hv

theorem Sound.suspendUser (name o : String) : Sound (s.suspendUser name o).1 := by
  unfold Store.suspendUser
  cases hU : s.users.get? name with
  | none => exact h
  | some U =>
    dsimp only
    cases hv : addReason U.suspended o with
    | error f => exact h
    | ok v =>
      have hset := h.setUserSuspended (v := v) hU
      dsimp only
      split
      · exact hset
      · exact hset
      · apply Collect.runAll_keeps (P := Sound) _ hset
        intro t i _ ht
        exact ht.suspendPlan i o

/-- A plan that fits may count again. -/
theorem Sound.activate {P : Plan} {v : JsVal} (hP : s.plans.get? p = some P) (hf : s.Fits p) :
    Sound (s.setPlan p { P with suspended := v }) := by
  have hres : Resuspended s (s.setPlan p { P with suspended := v }) := .setPlan hP rfl
  generalize hs : s.setPlan p { P with suspended := v } = s' at hres
  have hget : ∀ q, s'.plans.get? q =
      if q = p then some { P with suspended := v } else s.plans.get? q := by
    intro q
    rw [← hs, setPlan, Dict.get?_set]
  have hl := hres.linked h.linked
  have hactive : ∀ q, q ≠ p → s'.active q = s.active q := by
    intro q hq
    rw [active, hget, if_neg hq]
    rfl
  have hsubs : ∀ a, s'.subs a = s.subs a := by
    intro a
    rw [subs, subs, hres.seats]
    exact List.flatMap_congr fun u _ => hres.ownPlans u
  have hkids : ∀ a, ((s'.activeSubs a).filter (· ≠ p)).Sublist (s.activeSubs a) := by
    intro a
    rw [activeSubs, activeSubs, hres.seats, List.filter_flatMap]
    apply Collect.flatMap_sublist _ (List.Sublist.refl _)
    intro u
    have hsame : ((s.ownPlans u).filter s'.active).filter (· ≠ p) =
        ((s.ownPlans u).filter s.active).filter (· ≠ p) := by
      rw [List.filter_filter, List.filter_filter]
      apply List.filter_congr
      intro q _
      by_cases hq : q = p
      · simp [hq]
      · simp [hq, hactive q hq]
    rw [hres.ownPlans, hsame]
    exact List.filter_sublist
  obtain ⟨rank, hrank⟩ := h.ranked
  have hrank' : ∀ a b, b ∈ s'.activeSubs a → rank a < rank b := by
    intro a b hb
    have hsub := activeSubs_subset a hb
    rw [hsubs] at hsub
    exact hrank a b hsub
  have hself : ∀ w, weight s'.activeSubs w s.fuel p ≤ weight s.activeSubs w s.fuel p := by
    intro w
    apply weight_graft_self hkids
    intro q hq
    exact not_below_of_kid hrank' hq
  have hcharge : ∀ m, Measure.Counts m → s'.charge m = s.charge m := by
    intro m hm
    funext a
    rw [charge_eq, charge_eq, hres.seats]
    apply congrArg List.sum
    apply List.map_congr_left
    intro u _
    exact congrArg (Option.getD · 0) (hres.user_map hm.weigh_core u)
  refine ⟨hl, ⟨rank, fun a b hb => hrank a b (by rwa [hsubs] at hb)⟩, ⟨?_, ?_⟩, ?_⟩
  · intro a A hA
    rw [hget] at hA
    split at hA
    · rename_i ha
      cases hA
      exact ha ▸ h.named.plan p P hP
    · exact h.named.plan a A hA
  · rw [← hs]
    exact h.named.user
  · intro m hm a A hA
    rw [hget] at hA
    rw [load, hcharge m hm, hres.fuel]
    have htp := h.linked.total_load h.ranked m hP
    split at hA
    · rename_i ha
      cases hA
      obtain ⟨n, hn, -⟩ := h.quota m hm p P hP
      have hlim : m.limit { P with suspended := v } = m.limit P := by cases hm <;> rfl
      refine ⟨n, hlim.trans hn, fun _ => ?_⟩
      have hown := (hf m hm P _ hP htp).1
      rw [hn, JsVal.ofNat_le] at hown
      rw [ha]
      exact (hself _).trans (of_decide_eq_true hown)
    · rename_i ha
      obtain ⟨n, hn, hle⟩ := h.quota m hm a A hA
      refine ⟨n, hn, fun hact => ?_⟩
      rw [hactive a ha] at hact
      have hold := hle hact
      have hgraft := weight_graft (w := s.charge m) hkids (Nat.le_refl s.fuel) a
      by_cases hmet : p ∈ descend s'.activeSubs s.fuel a
      · obtain ⟨b, hb, hpb⟩ := (mem_descend_graft hkids hmet).resolve_left ha
        have hsub := activeSubs_subset b hpb
        rw [hsubs] at hsub
        have hfit := (hf m hm P _ hP htp).2 a A _ hA hact ⟨b, hb, hsub⟩
          (h.linked.total_load h.ranked m hA)
        rw [hn, JsVal.ofNat_le] at hfit
        have hfit := of_decide_eq_true hfit
        have hone : (descend s'.activeSubs s.fuel a).count p ≤ 1 := by
          apply count_descend_le_one hrank' hl.activeSubs_nodup
          intro c c' q hq hq'
          have hup := hl.parentUp_of_sub (activeSubs_subset c hq)
          exact Option.some.inj (hup.symm.trans (hl.parentUp_of_sub (activeSubs_subset c' hq')))
        have hmul := Nat.mul_le_mul hone (hself (s.charge m))
        rw [load] at hfit
        rw [load] at hfit
        omega
      · rw [List.count_eq_zero_of_not_mem hmet, Nat.zero_mul] at hgraft
        exact hgraft.trans hold

theorem Sound.unSuspendPlan {o : Option String} (hf : s.Activates p o → s.Fits p) :
    Sound (s.unSuspendPlan p o).1 := by
  rw [Store.unSuspendPlan]
  cases hP : s.plans.get? p with
  | none => exact h
  | some P =>
    dsimp only
    cases hv : removeReason P.suspended o with
    | error f => exact h
    | ok v =>
      by_cases ha : P.suspended.truthy = true ∧ v.truthy = false
      · exact h.activate hP (hf ⟨P, v, hP, ha.1, hv, ha.2⟩)
      · apply h.setSuspended hP
        intro ht
        by_contra hn
        exact ha ⟨ht, Bool.eq_false_of_not_eq_true hn⟩

omit h in
theorem Sound.unSuspendEach {l : List String} {o : Option String} (h : Sound s)
    (hf : FitsEach o l s) : Sound (Collect.runAll (fun s i => s.unSuspendPlan i o) l s).1 := by
  induction l generalizing s with
  | nil => exact h
  | cons i l ih =>
    have hi := h.unSuspendPlan hf.1
    rw [Collect.runAll]
    rcases hr : s.unSuspendPlan i o with ⟨s', r⟩
    have hrest := hf.2
    rw [hr] at hi hrest
    cases r with
    | error f => exact hi
    | ok r => exact ih hi (hrest rfl)

theorem Sound.unSuspendUser {o : Option String}
    (hf : ∀ U v, s.users.get? u = some U → removeReason U.suspended o = .ok v →
      FitsEach o U.subPlans.keys (s.setUser u { U with suspended := v })) :
    Sound (s.unSuspendUser u o).1 := by
  unfold Store.unSuspendUser
  cases hU : s.users.get? u with
  | none => exact h
  | some U =>
    dsimp only
    cases hv : removeReason U.suspended o with
    | error f => exact h
    | ok v =>
      have hset := h.setUserSuspended (v := v) hU
      have hplans : (s.setUser u { U with suspended := v }).getPlansByUserName 1 U.name =
          .ok U.subPlans.keys := by
        rw [(h.named.user u U hU).1, getPlansByUserName, setUser, Dict.get?_set_self]
        exact Collect.concatM_single _
      dsimp only
      rw [hplans]
      exact hset.unSuspendEach (hf U v hU hv)

end Resuspend
end Store
end JXPanel

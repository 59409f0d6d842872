import JXPanel.Totals
import JXPanel.Suspension

namespace JXPanel
set_option autoImplicit true

open Hierarchy

/-- The first plan has no more users than the second and the same limits. -/
structure Plan.Within (P' P : Plan) : Prop where
  name : P'.name = P.name
  owner : P'.owner = P.owner
  maxUserCount : P'.maxUserCount = P.maxUserCount
  maxDomainCount : P'.maxDomainCount = P.maxDomainCount
  users : P'.users.keys.Sublist P.users.keys

structure User.Within (U' U : User) : Prop where
  name : U'.name = U.name
  plan : U'.plan = U.plan
  subPlans : U'.subPlans.keys.Sublist U.subPlans.keys
  domains : U'.domains.size ≤ U.domains.size

theorem Plan.Within.refl (P : Plan) : P.Within P := ⟨rfl, rfl, rfl, rfl, .refl _⟩

theorem User.Within.refl (U : User) : U.Within U := ⟨rfl, rfl, .refl _, Nat.le_refl _⟩

theorem Plan.Within.trans {P₁ P₂ P₃ : Plan} (h : P₁.Within P₂) (h' : P₂.Within P₃) :
    P₁.Within P₃ :=
  ⟨h.name.trans h'.name, h.owner.trans h'.owner, h.maxUserCount.trans h'.maxUserCount,
    h.maxDomainCount.trans h'.maxDomainCount, h.users.trans h'.users⟩

theorem User.Within.trans {U₁ U₂ U₃ : User} (h : U₁.Within U₂) (h' : U₂.Within U₃) :
    U₁.Within U₃ :=
  ⟨h.name.trans h'.name, h.plan.trans h'.plan, h.subPlans.trans h'.subPlans,
    h.domains.trans h'.domains⟩

namespace Store

/-- No record is new, and none has more below it or is suspended less than it was. -/
structure Lighter (s s' : Store) : Prop where
  plan : ∀ p P', s'.plans.get? p = some P' → ∃ P, s.plans.get? p = some P ∧ P'.Within P ∧
    (P.suspended.truthy → P'.suspended.truthy)
  user : ∀ u U', s'.users.get? u = some U' → ∃ U, s.users.get? u = some U ∧ U'.Within U
  size : s'.plans.size ≤ s.plans.size

/-- Every plan left is suspended as it was. -/
def SameSuspension (s s' : Store) : Prop :=
  ∀ p P', s'.plans.get? p = some P' → ∃ P, s.plans.get? p = some P ∧ P'.suspended = P.suspended

variable {s s' : Store}

theorem Lighter.refl (s : Store) : Lighter s s :=
  ⟨fun _ P hP => ⟨P, hP, .refl P, id⟩, fun _ U hU => ⟨U, hU, .refl U⟩, Nat.le_refl _⟩

theorem Lighter.trans {s₁ s₂ : Store} (h : Lighter s s₁) (h' : Lighter s₁ s₂) : Lighter s s₂ := by
  constructor
  · intro p P₂ hP₂
    obtain ⟨P₁, hP₁, hw₂, hs₂⟩ := h'.plan p P₂ hP₂
    obtain ⟨P, hP, hw₁, hs₁⟩ := h.plan p P₁ hP₁
    exact ⟨P, hP, hw₂.trans hw₁, fun ht => hs₂ (hs₁ ht)⟩
  · intro u U₂ hU₂
    obtain ⟨U₁, hU₁, hw₂⟩ := h'.user u U₂ hU₂
    obtain ⟨U, hU, hw₁⟩ := h.user u U₁ hU₁
    exact ⟨U, hU, hw₂.trans hw₁⟩
  · exact h'.size.trans h.size

theorem SameSuspension.refl (s : Store) : SameSuspension s s := fun _ P hP => ⟨P, hP, rfl⟩

theorem SameSuspension.trans {s₁ s₂ : Store} (h : SameSuspension s s₁)
    (h' : SameSuspension s₁ s₂) : SameSuspension s s₂ := by
  intro p P₂ hP₂
  obtain ⟨P₁, hP₁, hs₂⟩ := h' p P₂ hP₂
  obtain ⟨P, hP, hs₁⟩ := h p P₁ hP₁
  exact ⟨P, hP, hs₂.trans hs₁⟩

namespace Lighter
variable (h : Lighter s s')
include h

theorem seats (p : String) : (s'.seats p).Sublist (s.seats p) := by
  cases hP' : s'.plans.get? p with
  | none =>
    rw [Store.seats, hP']
    exact List.nil_sublist _
  | some P' =>
    obtain ⟨P, hP, hw, -⟩ := h.plan p P' hP'
    rw [seats_of_get? hP', seats_of_get? hP]
    exact hw.users

theorem ownPlans (u : String) : (s'.ownPlans u).Sublist (s.ownPlans u) := by
  cases hU' : s'.users.get? u with
  | none =>
    rw [Store.ownPlans, hU']
    exact List.nil_sublist _
  | some U' =>
    obtain ⟨U, hU, hw⟩ := h.user u U' hU'
    rw [ownPlans_of_get? hU', ownPlans_of_get? hU]
    exact hw.subPlans

theorem active (hq : s'.active q = true) : s.active q = true := by
  cases hQ' : s'.plans.get? q with
  | none =>
    rw [Store.active, hQ'] at hq
    cases hq
  | some Q' =>
    obtain ⟨Q, hQ, -, hs⟩ := h.plan q Q' hQ'
    rw [active_of_get? hQ'] at hq
    rw [active_of_get? hQ]
    cases ht : Q.suspended.truthy with
    | false => rfl
    | true =>
      rw [hs ht] at hq
      cases hq

theorem subs_subset (p : String) : s'.subs p ⊆ s.subs p := by
  intro q hq
  obtain ⟨u, hu, hqu⟩ := mem_subs.1 hq
  exact mem_subs.2 ⟨u, (h.seats p).subset hu, (h.ownPlans u).subset hqu⟩

theorem activeSubs (p : String) : (s'.activeSubs p).Sublist (s.activeSubs p) := by
  apply Collect.flatMap_sublist _ (h.seats p)
  intro u
  have hsub := (h.ownPlans u).filter s'.active
  exact hsub.trans (List.monotone_filter_right _ fun q hq => h.active hq)

theorem charge {m : Measure} (hm : ∀ U' U : User, U'.Within U → m.weigh U' ≤ m.weigh U)
    (p : String) : s'.charge m p ≤ s.charge m p := by
  have hweigh : ∀ u, ((s'.users.get? u).map m.weigh).getD 0 ≤
      ((s.users.get? u).map m.weigh).getD 0 := by
    intro u
    cases hU' : s'.users.get? u with
    | none => exact Nat.zero_le _
    | some U' =>
      obtain ⟨U, hU, hw⟩ := h.user u U' hU'
      rw [hU]
      exact hm U' U hw
  have h₁ : s'.charge m p ≤
      ((s'.seats p).map (fun u => ((s.users.get? u).map m.weigh).getD 0)).sum :=
    List.sum_le_sum fun u _ => hweigh u
  exact h₁.trans (((h.seats p).map _).sum_le_sum fun _ _ => Nat.zero_le _)

theorem load {m : Measure} (hm : ∀ U' U : User, U'.Within U → m.weigh U' ≤ m.weigh U)
    (p : String) : s'.load m p ≤ s.load m p :=
  (weight_mono h.activeSubs (h.charge hm) _ p).trans
    (weight_le_of_le _ _ (Nat.succ_le_succ h.size) p)

theorem ranked (hr : s.Ranked) : s'.Ranked := by
  obtain ⟨rank, hrank⟩ := hr
  exact ⟨rank, fun p q hq => hrank p q (h.subs_subset p hq)⟩

end Lighter

theorem lighter_removePlan (s : Store) (o name : String) (arr : Report) :
    Lighter s (s.removePlan o name arr) ∧ SameSuspension s (s.removePlan o name arr) := by
  have hplan : ∀ p P', (s.removePlan o name arr).plans.get? p = some P' →
      s.plans.get? p = some P' := by
    intro p P' hP'
    simp only [removePlan, Dict.get?_eraseAll, Dict.get?_erase] at hP'
    split at hP'
    · cases hP'
    · split at hP'
      · cases hP'
      · exact hP'
  refine ⟨⟨fun p P' hP' => ⟨P', hplan p P' hP', .refl P', id⟩, fun u U' hU' => ?_, ?_⟩,
    fun p P' hP' => ⟨P', hplan p P' hP', rfl⟩⟩
  · rw [get?_users_removePlan] at hU'
    split at hU'
    · cases hU'
    · split at hU'
      · obtain ⟨U, hU, rfl⟩ := Option.map_eq_some_iff.1 hU'
        exact ⟨U, hU, rfl, rfl, Dict.keys_erase_sublist _ _, Nat.le_refl _⟩
      · exact ⟨U', hU', .refl U'⟩
  · exact (Dict.size_eraseAll_le _ _).trans (Dict.size_erase_le _ _)

theorem lighter_detachUser (s : Store) (name : String) :
    Lighter s (s.detachUser name) ∧ SameSuspension s (s.detachUser name) := by
  have hplan : ∀ p P', (s.detachUser name).plans.get? p = some P' →
      ∃ P, s.plans.get? p = some P ∧ P' = { P with users := P.users.erase name } := by
    intro p P' hP'
    rw [detachUser, Dict.get?_mapVals] at hP'
    obtain ⟨P, hP, rfl⟩ := Option.map_eq_some_iff.1 hP'
    exact ⟨P, hP, rfl⟩
  refine ⟨⟨fun p P' hP' => ?_, fun u U hU => ⟨U, hU, .refl U⟩, ?_⟩, fun p P' hP' => ?_⟩
  · obtain ⟨P, hP, rfl⟩ := hplan p P' hP'
    exact ⟨P, hP, ⟨rfl, rfl, rfl, rfl, Dict.keys_erase_sublist _ _⟩, id⟩
  · rw [detachUser, Dict.size_mapVals]
  · obtain ⟨P, hP, rfl⟩ := hplan p P' hP'
    exact ⟨P, hP, rfl⟩

theorem lighter_eraseUser (s : Store) (name : String) :
    Lighter s (s.eraseUser name) ∧ SameSuspension s (s.eraseUser name) := by
  refine ⟨⟨fun p P hP => ⟨P, hP, .refl P, id⟩, fun u U hU => ?_, Nat.le_refl _⟩,
    fun p P hP => ⟨P, hP, rfl⟩⟩
  rw [eraseUser, Dict.get?_erase] at hU
  split at hU
  · cases hU
  · exact ⟨U, hU, .refl U⟩

theorem lighter_detachDomain (s : Store) (o name : String) :
    Lighter s (s.detachDomain o name) ∧ SameSuspension s (s.detachDomain o name) := by
  refine ⟨⟨fun p P hP => ⟨P, hP, .refl P, id⟩, fun u U' hU' => ?_, Nat.le_refl _⟩,
    fun p P hP => ⟨P, hP, rfl⟩⟩
  simp only [detachDomain, modifyUser, Dict.get?_modify] at hU'
  split at hU'
  · obtain ⟨U, hU, rfl⟩ := Option.map_eq_some_iff.1 hU'
    exact ⟨U, hU, rfl, rfl, .refl _, Dict.size_erase_le _ _⟩
  · exact ⟨U', hU', .refl U'⟩

/-- Domain records play no part in the links and the totals. -/
theorem lighter_of_maps (hp : s'.plans = s.plans) (hu : s'.users = s.users) :
    Lighter s s' ∧ SameSuspension s s' := by
  refine ⟨⟨fun p P hP => ?_, fun u U hU => ?_, ?_⟩, fun p P hP => ?_⟩
  · exact ⟨P, hp ▸ hP, .refl P, id⟩
  · exact ⟨U, hu ▸ hU, .refl U⟩
  · rw [hp]
  · exact ⟨P, hp ▸ hP, rfl⟩

theorem Linked.of_maps (h : Linked s) (hp : s'.plans = s.plans) (hu : s'.users = s.users) :
    Linked s' := by
  constructor
  · intro u p hm
    rw [seats, hp] at hm
    rw [planOf, hu]
    exact h.seated u p hm
  · intro u p q hm hq
    rw [seats, hp] at hm
    rw [ownPlans, hu] at hq
    rw [ownerOf, hp]
    exact h.owned u p q hm hq

section Met
variable (h : Linked s)
include h

/-- The seat of a user that is met is a plan that is met. -/
theorem Linked.seat_of_met (hv : v ∈ s.usersMet name) (hp : v ∈ s.seats p) :
    p = name ∨ p ∈ s.plansMet name := by
  obtain ⟨q, hq, hvq⟩ := hv
  obtain rfl := Option.some.inj ((h.seated v p hp).symm.trans (h.seated v q hvq))
  rcases parent_mem_descend hq with rfl | ⟨r, hr, hpr⟩
  · exact .inl rfl
  · obtain ⟨w, hw, hpw⟩ := mem_subs.1 hpr
    have hmet : w ∈ s.usersMet name := ⟨r, descend_subset (Nat.sub_le deepest 1) name hr, hw⟩
    exact .inr ⟨w, hmet, p, hpw, self_mem_descend (Nat.succ_pos _) p⟩

/-- A plan that is met is listed by a user of a plan that is met. -/
theorem Linked.lister_of_met (hq : q ∈ s.plansMet name) :
    ∃ v p, v ∈ s.seats p ∧ q ∈ s.ownPlans v ∧ (p = name ∨ p ∈ s.plansMet name) := by
  obtain ⟨u, hu, x, hx, hqx⟩ := hq
  rcases parent_mem_descend hqx with rfl | ⟨y, hy, hqy⟩
  · have hseat := hu
    obtain ⟨r, -, hur⟩ := hseat
    exact ⟨u, r, hur, hx, h.seat_of_met hu hur⟩
  · obtain ⟨v, hv, hqv⟩ := mem_subs.1 hqy
    exact ⟨v, y, hv, hqv, .inr ⟨u, hu, x, hx, descend_subset (Nat.sub_le deepest 1) x hy⟩⟩

/-- A delete of a plan leaves no seat of a deleted user and no entry for a deleted plan in a seat
that is left, however deep it went. -/
theorem Linked.removePlan {arr : Report} (hc : s.Contents name arr)
    (ho : s.ownerOf name = some o) : Linked (s.removePlan o name arr) := by
  have hleft : ∀ u p, u ∈ (s.removePlan o name arr).seats p →
      u ∈ s.seats p ∧ ¬(p = name ∨ p ∈ s.plansMet name) := by
    intro u p hu
    rw [seats_removePlan] at hu
    split at hu
    · exact absurd hu List.not_mem_nil
    · rename_i hn
      exact ⟨hu, fun hm => hn (hm.imp_right (hc.plans p).2)⟩
  constructor
  · intro u p hu
    obtain ⟨hseat, hn⟩ := hleft u p hu
    rw [planOf_removePlan, if_neg fun hm => hn (h.seat_of_met ((hc.users u).1 hm) hseat)]
    exact h.seated u p hseat
  · intro u p q hu hq
    obtain ⟨hseat, hn⟩ := hleft u p hu
    obtain ⟨-, hqu, hne⟩ := (mem_ownPlans_removePlan s).1 hq
    have hown := h.owned u p q hseat hqu
    rw [ownerOf_removePlan, if_neg]
    · exact hown
    · rintro (rfl | hm)
      · exact hne ⟨Option.some.inj (hown.symm.trans ho), rfl⟩
      · obtain ⟨v, r, hv, hqv, hr⟩ := h.lister_of_met ((hc.plans q).1 hm)
        obtain rfl := Option.some.inj (hown.symm.trans (h.owned v r q hv hqv))
        obtain rfl := Option.some.inj ((h.seated u p hseat).symm.trans (h.seated u r hv))
        exact hn hr

theorem Linked.detachUser (name : String) : Linked (s.detachUser name) := by
  constructor
  · intro u p hu
    exact h.seated u p ((mem_seats_detachUser s).1 hu).1
  · intro u p q hu hq
    rw [ownerOf_detachUser]
    exact h.owned u p q ((mem_seats_detachUser s).1 hu).1 hq

theorem Linked.eraseUser (hn : ∀ p, name ∉ s.seats p) : Linked (s.eraseUser name) := by
  have hne : ∀ u p, u ∈ s.seats p → u ≠ name := fun u p hu he => hn p (he ▸ hu)
  constructor
  · intro u p hu
    rw [planOf_eraseUser, if_neg (hne u p hu)]
    exact h.seated u p hu
  · intro u p q hu hq
    rw [ownPlans_eraseUser, if_neg (hne u p hu)] at hq
    exact h.owned u p q hu hq

theorem Linked.detachDomain (o name : String) : Linked (s.detachDomain o name) := by
  constructor
  · intro u p hu
    rw [planOf_detachDomain]
    exact h.seated u p hu
  · intro u p q hu hq
    rw [ownPlans_detachDomain] at hq
    exact h.owned u p q hu hq

end Met

/-- What every delete does, also one that throws half way. -/
structure Shrinks (s s' : Store) : Prop where
  linked : Linked s → Linked s'
  lighter : Lighter s s'
  same : SameSuspension s s'

theorem Shrinks.refl (s : Store) : Shrinks s s := ⟨id, .refl s, .refl s⟩

theorem Shrinks.trans {s₁ s₂ : Store} (h : Shrinks s s₁) (h' : Shrinks s₁ s₂) : Shrinks s s₂ :=
  ⟨fun hl => h'.linked (h.linked hl), h.lighter.trans h'.lighter, h.same.trans h'.same⟩

theorem Shrinks.of_lighter (hl : Lighter s s' ∧ SameSuspension s s') (h : Linked s → Linked s') :
    Shrinks s s' := ⟨h, hl.1, hl.2⟩

theorem eraseDomain_plans (s : Store) (name : String) : (s.eraseDomain name).plans = s.plans := rfl

theorem shrinks_of_maps (hp : s'.plans = s.plans) (hu : s'.users = s.users) : Shrinks s s' :=
  .of_lighter (lighter_of_maps hp hu) fun h => h.of_maps hp hu

theorem shrinks_deletePlan (s : Store) (name : String) : Shrinks s (s.deletePlan name).1 := by
  rcases hr : s.deletePlan name with ⟨s', r⟩
  rcases deletePlan_cases hr with ⟨rfl, -⟩ | ⟨plan, owner, arr, hP, -, harr, rfl, -⟩
  · exact .refl _
  · apply Shrinks.of_lighter (lighter_removePlan s _ _ _)
    intro h
    exact h.removePlan (planContents_mem harr) (ownerOf_of_get? hP)

theorem shrinks_deleteSubPlans (os : List String) (s : Store) (subs : Report) :
    Shrinks s (deleteSubPlans os s subs).1 := by
  induction os generalizing s subs with
  | nil => exact .refl s
  | cons o os ih =>
    have ho := shrinks_deletePlan s o
    rw [deleteSubPlans]
    rcases hr : s.deletePlan o with ⟨s₁, r⟩
    rw [hr] at ho
    cases r with
    | error f => exact ho
    | ok res => exact ho.trans (ih s₁ _)

theorem shrinks_dropDomains (s : Store) (name : String) (l : List String) :
    Shrinks s (Collect.runAll (dropDomainOf name) l s).1 := by
  apply Collect.runAll_keeps (P := Shrinks s) _ (.refl s)
  intro t d _ ht
  apply ht.trans
  have hmaps : (dropDomainOf name t d).1.plans = t.plans ∧
      (dropDomainOf name t d).1.users = t.users := by
    unfold dropDomainOf
    split
    · exact ⟨rfl, rfl⟩
    · exact ⟨rfl, rfl⟩
    · dsimp only
      split <;> exact ⟨rfl, rfl⟩
  exact shrinks_of_maps hmaps.1 hmaps.2

theorem shrinks_detachUser (s : Store) (name : String) : Shrinks s (s.detachUser name) :=
  .of_lighter (lighter_detachUser s name) fun h => h.detachUser name

theorem shrinks_eraseUser (s : Store) (name : String) (hn : ∀ p, name ∉ s.seats p) :
    Shrinks s (s.eraseUser name) :=
  .of_lighter (lighter_eraseUser s name) fun h => h.eraseUser hn

theorem shrinks_deleteUser (s : Store) (name : String) : Shrinks s (s.deleteUser name).1 := by
  unfold deleteUser
  cases s.users.get? name with
  | none => exact .refl s
  | some user =>
    have h₁ := shrinks_deleteSubPlans user.subPlans.keys s
      { plans := [], users := [name], domains := [] }
    rcases hrun : deleteSubPlans user.subPlans.keys s
      { plans := [], users := [name], domains := [] } with ⟨s₁, r⟩
    rw [hrun] at h₁
    dsimp only
    rw [hrun]
    cases r with
    | error f => exact h₁
    | ok subs =>
      have h₂ := shrinks_detachUser s₁ name
      have h₃ := shrinks_dropDomains (s₁.detachUser name) name s₁.domains.keys
      dsimp only
      rcases hdrop : Collect.runAll (dropDomainOf name) s₁.domains.keys (s₁.detachUser name) with
        ⟨s₂, r₂⟩
      rw [hdrop] at h₃
      have h₁₃ := h₁.trans (h₂.trans h₃)
      cases r₂ with
      | error f => exact h₁₃
      | ok _ =>
        have hn : ∀ p, name ∉ s₂.seats p := by
          intro p hm
          exact ((mem_seats_detachUser s₁).1 ((h₃.lighter.seats p).subset hm)).2 rfl
        exact h₁₃.trans (shrinks_eraseUser s₂ name hn)

theorem shrinks_deleteDomain (s : Store) (name : String) : Shrinks s (s.deleteDomain name).1 := by
  rcases hr : s.deleteDomain name with ⟨s', r⟩
  have h₁ : Shrinks s (s.eraseDomain name) := shrinks_of_maps (s.eraseDomain_plans name) rfl
  rcases deleteDomain_cases hr with ⟨rfl, -⟩ | ⟨domain, -, ⟨-, rfl, -⟩ | ⟨-, rfl, -⟩⟩
  · exact .refl _
  · exact h₁
  · apply h₁.trans
    apply Shrinks.of_lighter (lighter_detachDomain _ domain.owner name)
    intro h
    exact h.detachDomain domain.owner name

/-- A suspension makes no total larger. -/
theorem lighter_of_setPlan {P P' : Plan} (hP : s.plans.get? name = some P) (hw : P'.Within P)
    (hs : P.suspended.truthy → P'.suspended.truthy) : Lighter s (s.setPlan name P') := by
  refine ⟨fun p Q hQ => ?_, fun u U hU => ⟨U, hU, .refl U⟩, ?_⟩
  · rw [setPlan, Dict.get?_set] at hQ
    split at hQ
    · rename_i hp
      cases hQ
      exact ⟨P, hp ▸ hP, hw, hs⟩
    · exact ⟨Q, hQ, .refl Q, id⟩
  · rw [setPlan, ← Dict.length_keys, Dict.keys_set_of_mem (Dict.mem_of_get? hP), Dict.length_keys]

theorem lighter_of_setUser {U U' : User} (hU : s.users.get? name = some U) (hw : U'.Within U) :
    Lighter s (s.setUser name U') := by
  refine ⟨fun p P hP => ⟨P, hP, .refl P, id⟩, fun u V hV => ?_, Nat.le_refl _⟩
  rw [setUser, Dict.get?_set] at hV
  split at hV
  · rename_i hu
    cases hV
    exact ⟨U, hu ▸ hU, hw⟩
  · exact ⟨V, hV, .refl V⟩

end Store
end JXPanel

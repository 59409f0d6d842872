import JXPanel.Room

namespace JXPanel
set_option autoImplicit true

open Hierarchy

namespace Store
variable {s s' : Store}

theorem fuel_attachUser (s : Store) (p name : String) (U : User) :
    (s.attachUser p name U).fuel = s.fuel := by
  rw [fuel, attachUser, setUser, modifyPlan, Dict.size_modify]
  rfl

theorem get?_plans_attachUser (name : String) (U : User) (hP : s.plans.get? p = some P)
    (q : String) : (s.attachUser p name U).plans.get? q =
      if q = p then some { P with users := P.users.set name () } else s.plans.get? q := by
  simp only [attachUser, setUser, modifyPlan, Dict.get?_modify]
  split
  · rename_i hq
    rw [hq, hP]
    rfl
  · rfl

theorem active_attachUser (name : String) (U : User) (hP : s.plans.get? p = some P) (q : String) :
    (s.attachUser p name U).active q = s.active q := by
  rw [active, get?_plans_attachUser name U hP]
  split
  · rename_i hq
    rw [hq, active_of_get? hP]
    rfl
  · rfl

theorem Linked.not_seated (h : Linked s) (hname : name ∉ s.users) (q : String) :
    name ∉ s.seats q := by
  intro hm
  exact hname (mem_users_of_planOf (h.seated name q hm))

section AttachUser
variable {P : Plan} {U : User} (h : Linked s) (hname : name ∉ s.users)
  (hP : s.plans.get? p = some P)
include h hname

theorem Linked.charges_attachUser {u : String} (hu : u ∈ s.seats q) :
    (s.attachUser p name U).weighs m u = s.weighs m u := by
  have hne : u ≠ name := by
    intro he
    exact h.not_seated hname q (he ▸ hu)
  rw [weighs, Store.attachUser, setUser, Dict.get?_set_ne _ _ hne]
  rfl

theorem Linked.attachUser (hUp : U.plan = p) (hUs : U.subPlans.keys = []) :
    Linked (s.attachUser p name U) := by
  constructor
  · intro u q hu
    rw [planOf_attachUser]
    rcases (mem_seats_attachUser s).1 hu with hu | ⟨rfl, -, rfl⟩
    · have hne : u ≠ name := by
        intro he
        exact h.not_seated hname q (he ▸ hu)
      rw [if_neg hne]
      exact h.seated u q hu
    · rw [if_pos rfl, hUp]
  · intro u q r hu hr
    rw [ownPlans_attachUser] at hr
    rw [ownerOf_attachUser]
    split at hr
    · rw [hUs] at hr
      exact absurd hr List.not_mem_nil
    · rename_i hne
      rcases (mem_seats_attachUser s).1 hu with hu | ⟨-, -, rfl⟩
      · exact h.owned u q r hu hr
      · exact (hne rfl).elim

include hP

theorem Linked.seats_attachUser (q : String) :
    (s.attachUser p name U).seats q = if q = p then s.seats q ++ [name] else s.seats q := by
  rw [seats, get?_plans_attachUser name U hP]
  split
  · rename_i hq
    have hn := h.not_seated hname q
    rw [hq, seats_of_get? hP] at hn
    rw [hq, seats_of_get? hP]
    exact Dict.keys_set_of_absent hn ()
  · rfl

theorem Linked.activeSubs_attachUser (hU : U.subPlans.keys = []) :
    (s.attachUser p name U).activeSubs = s.activeSubs := by
  have hown : ∀ q, ∀ u ∈ s.seats q,
      ((s.attachUser p name U).ownPlans u).filter (s.attachUser p name U).active =
        (s.ownPlans u).filter s.active := by
    intro q u hu
    have hne : u ≠ name := by
      intro he
      exact h.not_seated hname q (he ▸ hu)
    rw [ownPlans_attachUser, if_neg hne]
    exact List.filter_congr fun r _ => active_attachUser name U hP r
  funext q
  rw [activeSubs, activeSubs, h.seats_attachUser hname hP]
  split
  · rw [List.flatMap_append, List.flatMap_congr (hown q)]
    simp [ownPlans_attachUser, hU]
  · exact List.flatMap_congr (hown q)

theorem Linked.charge_attachUser (q : String) :
    (s.attachUser p name U).charge m q = s.charge m q + if q = p then m.weigh U else 0 := by
  have hweigh : ∀ u ∈ s.seats q, (s.attachUser p name U).weighs m u = s.weighs m u := by
    intro u hu
    exact h.charges_attachUser hname hu
  have hself : (s.attachUser p name U).weighs m name = m.weigh U := by
    rw [weighs, Store.attachUser, setUser, Dict.get?_set_self]
    rfl
  rw [charge_eq, charge_eq, h.seats_attachUser hname hP]
  split
  · rw [List.map_append, List.sum_append, List.map_congr_left hweigh]
    simp [hself]
  · rw [List.map_congr_left hweigh, Nat.add_zero]

end AttachUser

/-- A new user in a plan that has room for him. -/
theorem Sound.attachUser {P : Plan} {U : User} (h : Sound s) (hname : name ∉ s.users)
    (hP : s.plans.get? p = some P) (hc : s.checkTotal userMeasure P = .ok none) (hnn : name ≠ "")
    (hU : U.name = name ∧ U.plan = p ∧ U.subPlans.keys = [] ∧ U.domains.size = 0) :
    Sound (s.attachUser p name U) := by
  obtain ⟨hUn, hUp, hUs, hUd⟩ := hU
  have hsubs := h.linked.activeSubs_attachUser hname hP hUs
  have hfuel := s.fuel_attachUser p name U
  have hranked : (s.attachUser p name U).Ranked := by
    obtain ⟨rank, hrank⟩ := h.ranked
    refine ⟨rank, fun q r hr => hrank q r ?_⟩
    obtain ⟨u, hu, hru⟩ := mem_subs.1 hr
    rw [ownPlans_attachUser] at hru
    split at hru
    · rw [hUs] at hru
      exact absurd hru List.not_mem_nil
    · rename_i hne
      rcases (mem_seats_attachUser s).1 hu with hu | ⟨-, -, rfl⟩
      · exact mem_subs.2 ⟨u, hu, hru⟩
      · exact (hne rfl).elim
  have hplans : ∀ q Q', (s.attachUser p name U).plans.get? q = some Q' →
      ∃ Q, s.plans.get? q = some Q ∧ ∃ us, Q' = { Q with users := us } := by
    intro q Q' hQ'
    rw [get?_plans_attachUser name U hP] at hQ'
    split at hQ'
    · rename_i hq
      cases hQ'
      exact ⟨P, hq ▸ hP, _, rfl⟩
    · exact ⟨Q', hQ', Q'.users, rfl⟩
  have hnamed : Named (s.attachUser p name U) := by
    constructor
    · intro q Q' hQ'
      obtain ⟨Q, hQ, us, rfl⟩ := hplans q Q' hQ'
      exact h.named.plan q Q hQ
    · intro u V hV
      rw [Store.attachUser, setUser, Dict.get?_set] at hV
      split at hV
      · rename_i hu
        cases hV
        exact ⟨hUn.trans hu.symm, hu.symm ▸ hnn, hUp.symm ▸ (h.named.plan p P hP).2.1⟩
      · exact h.named.user u V hV
  apply h.charged (h.linked.attachUser hname hUp hUs) hranked hnamed
  · intro q Q' hQ'
    obtain ⟨Q, hQ, us, rfl⟩ := hplans q Q' hQ'
    refine ⟨Q, hQ, fun m hm => ?_, active_attachUser name U hP q⟩
    cases hm <;> rfl
  · intro m hm q Q n hQ hn hle
    have hcharge := fun r => h.linked.charge_attachUser (m := m) (U := U) hname hP (q := r)
    cases hm with
    | user =>
      apply h.load_charged hsubs hfuel (fun r => ?_) hP hc hQ hn hle
      exact (hcharge r).le
    | domain =>
      have hload : (s.attachUser p name U).load domainMeasure q = s.load domainMeasure q := by
        rw [load, load, hsubs, hfuel]
        congr 1
        funext r
        rw [hcharge r]
        simp [domainMeasure, hUd]
      rw [hload]
      exact hle

section AttachDomain
variable {U : User} {D : Domain} (hU : s.users.get? o = some U)
include hU

theorem get?_users_attachDomain (name : String) (D : Domain) (u : String) :
    (s.attachDomain o name D).users.get? u =
      if u = o then some { U with domains := U.domains.set name () } else s.users.get? u := by
  simp only [attachDomain, setDomain, modifyUser, Dict.get?_modify]
  split
  · rename_i hu
    rw [hu, hU]
    rfl
  · rfl

theorem weighs_attachDomain (name : String) (D : Domain) (u : String) :
    (s.attachDomain o name D).weighs userMeasure u = s.weighs userMeasure u ∧
      (s.attachDomain o name D).weighs domainMeasure u ≤
        s.weighs domainMeasure u + if u = o then 1 else 0 := by
  simp only [weighs, get?_users_attachDomain hU]
  split
  · rename_i hu
    rw [hu, hU]
    exact ⟨rfl, Dict.size_set_le_succ _ _ _⟩
  · exact ⟨rfl, Nat.le_refl _⟩

theorem Linked.charge_attachDomain (h : Linked s) (name : String) (D : Domain) (q : String) :
    (s.attachDomain o name D).charge domainMeasure q ≤
      s.charge domainMeasure q + if q = U.plan then 1 else 0 := by
  have hle : (s.attachDomain o name D).charge domainMeasure q ≤
      s.charge domainMeasure q + (s.seats q).count o := by
    rw [charge_eq, charge_eq, show (s.attachDomain o name D).seats q = s.seats q from rfl]
    induction s.seats q with
    | nil => exact Nat.le_refl _
    | cons u us ih =>
      have hu := (weighs_attachDomain hU name D u).2
      simp only [List.map_cons, List.sum_cons, List.count_cons, beq_iff_eq]
      omega
  have hcount : (s.seats q).count o ≤ if q = U.plan then 1 else 0 := by
    by_cases hm : o ∈ s.seats q
    · have hq : q = U.plan := Option.some.inj ((h.seated o q hm).symm.trans (planOf_of_get? hU))
      rw [if_pos hq]
      exact List.nodup_iff_count_le_one.1 (s.seats_nodup q) o
    · rw [List.count_eq_zero_of_not_mem hm]
      exact Nat.zero_le _
  omega

omit hU in
theorem Linked.attachDomain (h : Linked s) (name : String) (D : Domain) :
    Linked (s.attachDomain o name D) := by
  constructor
  · intro u q hu
    rw [planOf_attachDomain]
    exact h.seated u q hu
  · intro u q r hu hr
    rw [ownPlans_attachDomain] at hr
    exact h.owned u q r hu hr

/-- A new domain of a user whose plan has room for it. -/
theorem Sound.attachDomain {P : Plan} (h : Sound s) (hP : s.plans.get? U.plan = some P)
    (hc : s.checkTotal domainMeasure P = .ok none) (name : String) (D : Domain) :
    Sound (s.attachDomain o name D) := by
  have hsubs : (s.attachDomain o name D).activeSubs = s.activeSubs := by
    funext q
    rw [activeSubs, activeSubs]
    apply List.flatMap_congr
    intro u _
    rw [ownPlans_attachDomain]
    rfl
  have hranked : (s.attachDomain o name D).Ranked := by
    obtain ⟨rank, hrank⟩ := h.ranked
    refine ⟨rank, fun q r hr => hrank q r ?_⟩
    obtain ⟨u, hu, hru⟩ := mem_subs.1 hr
    rw [ownPlans_attachDomain] at hru
    exact mem_subs.2 ⟨u, hu, hru⟩
  have hnamed : Named (s.attachDomain o name D) := by
    refine ⟨h.named.plan, fun u V hV => ?_⟩
    rw [get?_users_attachDomain hU] at hV
    split at hV
    · rename_i hu
      cases hV
      exact hu ▸ h.named.user o U hU
    · exact h.named.user u V hV
  apply h.charged (h.linked.attachDomain name D) hranked hnamed
  · intro q Q hQ
    exact ⟨Q, hQ, fun _ _ => rfl, rfl⟩
  · intro m hm q Q n hQ hn hle
    cases hm with
    | user =>
      have hload : (s.attachDomain o name D).load userMeasure q = s.load userMeasure q := by
        rw [load, load, hsubs]
        congr 1
        funext r
        rw [charge_eq, charge_eq]
        exact congrArg List.sum (List.map_congr_left fun u _ =>
          (weighs_attachDomain hU name D u).1)
      rw [hload]
      exact hle
    | domain =>
      have hfuel : (s.attachDomain o name D).fuel = s.fuel := rfl
      exact h.load_charged hsubs hfuel (h.linked.charge_attachDomain hU name D) hP hc hQ hn hle

end AttachDomain

section NewPlan
variable {plan : Plan} (h : Sound s) (hname : name ∉ s.plans) (hus : plan.users.keys = [])
  (hplans : s'.plans = s.plans.set name plan) (hplan : ∀ u, s'.planOf u = s.planOf u)
  (hown : ∀ u, s'.ownPlans u = s.ownPlans u ∨
    (s'.ownPlans u = s.ownPlans u ++ [name] ∧ u = plan.owner))
include hname hus hplans

theorem seats_newPlan (p : String) : s'.seats p = s.seats p := by
  rw [seats, hplans, Dict.get?_set]
  split
  · rename_i hp
    rw [hp, seats, Dict.get?_eq_none.2 hname]
    exact hus
  · rfl

include hown

theorem Linked.newPlan (h : Linked s) (hplan : ∀ u, s'.planOf u = s.planOf u) : Linked s' := by
  have howner : ∀ q u, s.ownerOf q = some u → s'.ownerOf q = some u := by
    intro q u hq
    have hne : q ≠ name := by
      intro he
      exact hname (he ▸ mem_plans_of_ownerOf hq)
    rw [ownerOf, hplans, Dict.get?_set_ne _ _ hne]
    exact hq
  constructor
  · intro u p hu
    rw [seats_newPlan hname hus hplans] at hu
    rw [hplan]
    exact h.seated u p hu
  · intro u p q hu hq
    rw [seats_newPlan hname hus hplans] at hu
    rcases hown u with he | ⟨he, hou⟩
    · rw [he] at hq
      exact howner q u (h.owned u p q hu hq)
    · rw [he] at hq
      rcases List.mem_append.1 hq with hq | hq
      · exact howner q u (h.owned u p q hu hq)
      · rw [List.mem_singleton.1 hq, ownerOf, hplans, Dict.get?_set_self, hou]
        rfl

/-- Going down from an old plan meets besides the old plans only the new one. -/
theorem subs_newPlan {p q : String} (hq : q ∈ s'.subs p) :
    q ∈ s.subs p ∨ (q = name ∧ plan.owner ∈ s.seats p) := by
  obtain ⟨u, hu, hqu⟩ := mem_subs.1 hq
  rw [seats_newPlan hname hus hplans] at hu
  rcases hown u with he | ⟨he, hou⟩
  · rw [he] at hqu
    exact .inl (mem_subs.2 ⟨u, hu, hqu⟩)
  · rw [he] at hqu
    rcases List.mem_append.1 hqu with hqu | hqu
    · exact .inl (mem_subs.2 ⟨u, hu, hqu⟩)
    · exact .inr ⟨List.mem_singleton.1 hqu, hou ▸ hu⟩

theorem Linked.ranked_newPlan (h : Linked s) (hr : s.Ranked) : s'.Ranked := by
  obtain ⟨rank, hrank⟩ := hr
  have hfresh : ∀ p q, q ∈ s.subs p → p ≠ name ∧ q ≠ name := by
    intro p q hq
    obtain ⟨u, hu, hqu⟩ := mem_subs.1 hq
    refine ⟨fun he => hname (he ▸ mem_plans_of_seat hu), fun he => hname ?_⟩
    exact he ▸ mem_plans_of_ownerOf (h.owned u p q hu hqu)
  refine ⟨fun p => if p = name then (((s.planOf plan.owner).map rank).getD 0) + 1 else rank p,
    fun p q hq => ?_⟩
  rcases subs_newPlan hname hus hplans hown hq with hq | ⟨rfl, hseat⟩
  · obtain ⟨hp, hqn⟩ := hfresh p q hq
    simp only [if_neg hp, if_neg hqn]
    exact hrank p q hq
  · have hp : p ≠ q := by
      intro he
      exact hname (he ▸ mem_plans_of_seat hseat)
    simp only [if_neg hp, if_pos, h.seated _ p hseat]
    exact Nat.lt_succ_self _

include hplan h

/-- A new plan without users adds nothing to the totals of the others. -/
theorem Sound.newPlan
    (hweigh : ∀ m, Measure.Counts m → ∀ u, s'.weighs m u = s.weighs m u)
    (huser : ∀ u U, s'.users.get? u = some U → U.name = u ∧ u ≠ "" ∧ U.plan ≠ "")
    (hnamed : plan.name = name ∧ name ≠ "" ∧ plan.owner ≠ "")
    (hlimit : ∀ m, Measure.Counts m → ∃ n, m.limit plan = .ofNat n) : Sound s' := by
  have hseats := seats_newPlan hname hus hplans
  have hactive : ∀ q, q ≠ name → s'.active q = s.active q := by
    intro q hq
    rw [active, hplans, Dict.get?_set_ne _ _ hq]
    rfl
  have hnone : ∀ p, p = name → s'.activeSubs p = [] := by
    intro p hp
    rw [activeSubs, hseats, hp, seats, Dict.get?_eq_none.2 hname]
    rfl
  have hsubs : ∀ p, ((s'.activeSubs p).filter (· ≠ name)).Sublist (s.activeSubs p) := by
    intro p
    rw [activeSubs, activeSubs, hseats, List.filter_flatMap]
    apply Collect.flatMap_sublist _ (List.Sublist.refl _)
    intro u
    have hsame : ((s.ownPlans u).filter s'.active).filter (· ≠ name) =
        ((s.ownPlans u).filter s.active).filter (· ≠ name) := by
      rw [List.filter_filter, List.filter_filter]
      apply List.filter_congr
      intro q _
      by_cases hq : q = name
      · simp [hq]
      · simp [hq, hactive q hq]
    rcases hown u with he | ⟨he, -⟩
    · rw [he, hsame]
      exact List.filter_sublist
    · rw [he, List.filter_append, List.filter_append, hsame]
      have hlast : ([name].filter s'.active).filter (· ≠ name) = [] := by
        rw [List.filter_filter]
        simp
      rw [hlast, List.append_nil]
      exact List.filter_sublist
  have hcharge : ∀ m, Measure.Counts m → ∀ p, s'.charge m p = s.charge m p := by
    intro m hm p
    rw [charge_eq, charge_eq, hseats]
    exact congrArg List.sum (List.map_congr_left fun u _ => hweigh m hm u)
  have hzero : ∀ m, Measure.Counts m → s'.charge m name = 0 := by
    intro m hm
    rw [charge_eq, hseats, seats, Dict.get?_eq_none.2 hname]
    rfl
  refine ⟨h.linked.newPlan hname hus hplans hown hplan,
    h.linked.ranked_newPlan hname hus hplans hown h.ranked, ⟨?_, huser⟩, ?_⟩
  · intro p P hP
    rw [hplans, Dict.get?_set] at hP
    split at hP
    · rename_i hp
      cases hP
      exact ⟨hnamed.1.trans hp.symm, hp.symm ▸ hnamed.2.1, hnamed.2.2⟩
    · exact h.named.plan p P hP
  · intro m hm p P hP
    rw [hplans, Dict.get?_set] at hP
    split at hP
    · rename_i hp
      cases hP
      obtain ⟨n, hn⟩ := hlimit m hm
      refine ⟨n, hn, fun _ => ?_⟩
      rw [load, hp, fuel, weight, hnone name rfl, hzero m hm]
      exact Nat.zero_le n
    · rename_i hp
      obtain ⟨n, hn, hle⟩ := h.quota m hm p P hP
      refine ⟨n, hn, fun hact => ?_⟩
      rw [hactive p hp] at hact
      have hle' := hle hact
      have hload : s'.load m p ≤ weight s.activeSubs (s.charge m) s'.fuel p := by
        apply weight_add_leaf (hnone name rfl) (hzero m hm) (fun q _ => hsubs q)
          (fun q _ => (hcharge m hm q).le) _ hp
      have hfuel : s.fuel ≤ s'.fuel := by
        rw [fuel, fuel, hplans]
        exact Nat.succ_le_succ (Dict.size_set_le _ _ _)
      rw [weight_stable _ (h.ranked.active_not_deep p) hfuel] at hload
      exact hload.trans hle'

end NewPlan
end Store
end JXPanel

import JXPanel.Effects

namespace JXPanel
set_option autoImplicit true

namespace Store

/-- The users that a plan lists. -/
def seats (s : Store) (p : String) : List String := ((s.plans.get? p).map (·.users.keys)).getD []

/-- The plan that a user names. -/
def planOf (s : Store) (u : String) : Option String := (s.users.get? u).map User.plan

/-- The plans that a user lists. -/
def ownPlans (s : Store) (u : String) : List String :=
  ((s.users.get? u).map (·.subPlans.keys)).getD []

/-- The owner that a plan names. -/
def ownerOf (s : Store) (p : String) : Option String := (s.plans.get? p).map Plan.owner

/-- The domains that a user lists. -/
def ownDomains (s : Store) (u : String) : List String :=
  ((s.users.get? u).map (·.domains.keys)).getD []

/-- The owner that a domain names. -/
def domainOwner (s : Store) (d : String) : Option String := (s.getDomain? d).map Domain.owner

/-- Every reference from one record to another is answered by one in the other direction. -/
structure Integrity (s : Store) : Prop where
  seat : ∀ u p, s.planOf u = some p ↔ u ∈ s.seats p
  plan : ∀ p u, u ≠ superUser → (s.ownerOf p = some u → p ∈ s.ownPlans u)
  owned : ∀ p u, p ∈ s.ownPlans u → s.ownerOf p = some u
  domain : ∀ d u, s.domainOwner d = some u ↔ d ∈ s.ownDomains u
  filled : ∀ d ∈ s.domains, (s.getDomain? d).isSome

/-- What deletes at any depth leave of the references: the users that a plan lists are there,
and so are the plans of each of them. -/
structure Linked (s : Store) : Prop where
  seated : ∀ u p, u ∈ s.seats p → s.planOf u = some p
  owned : ∀ u p q, u ∈ s.seats p → q ∈ s.ownPlans u → s.ownerOf q = some u

theorem Integrity.linked {s : Store} (h : Integrity s) : Linked s :=
  ⟨fun u p hu => (h.seat u p).2 hu, fun u _ q _ hq => h.owned q u hq⟩

variable {s s' : Store}

theorem mem_seats : u ∈ s.seats p ↔ ∃ P, s.plans.get? p = some P ∧ u ∈ P.users := by
  unfold seats
  cases s.plans.get? p with
  | none => simp
  | some P => simp [Dict.mem_keys]

theorem mem_ownPlans : q ∈ s.ownPlans u ↔ ∃ U, s.users.get? u = some U ∧ q ∈ U.subPlans := by
  unfold ownPlans
  cases s.users.get? u with
  | none => simp
  | some U => simp [Dict.mem_keys]

theorem mem_ownDomains : d ∈ s.ownDomains u ↔ ∃ U, s.users.get? u = some U ∧ d ∈ U.domains := by
  unfold ownDomains
  cases s.users.get? u with
  | none => simp
  | some U => simp [Dict.mem_keys]

theorem planOf_eq : s.planOf u = some p ↔ ∃ U, s.users.get? u = some U ∧ U.plan = p :=
  Option.map_eq_some_iff

theorem ownerOf_eq : s.ownerOf p = some u ↔ ∃ P, s.plans.get? p = some P ∧ P.owner = u :=
  Option.map_eq_some_iff

theorem domainOwner_eq : s.domainOwner d = some u ↔ ∃ D, s.getDomain? d = some D ∧ D.owner = u :=
  Option.map_eq_some_iff

theorem seats_of_get? (h : s.plans.get? p = some P) : s.seats p = P.users.keys := by
  rw [seats, h]
  rfl

theorem planOf_of_get? (h : s.users.get? u = some U) : s.planOf u = some U.plan := by
  rw [planOf, h]
  rfl

theorem ownPlans_of_get? (h : s.users.get? u = some U) : s.ownPlans u = U.subPlans.keys := by
  rw [ownPlans, h]
  rfl

theorem ownDomains_of_get? (h : s.users.get? u = some U) : s.ownDomains u = U.domains.keys := by
  rw [ownDomains, h]
  rfl

theorem ownerOf_of_get? (h : s.plans.get? p = some P) : s.ownerOf p = some P.owner := by
  rw [ownerOf, h]
  rfl

theorem planOf_isSome : (s.planOf u).isSome ↔ u ∈ s.users := by
  rw [planOf, Option.isSome_map, Option.isSome_iff_exists, Dict.mem_iff]

theorem ownerOf_isSome : (s.ownerOf p).isSome ↔ p ∈ s.plans := by
  rw [ownerOf, Option.isSome_map, Option.isSome_iff_exists, Dict.mem_iff]

theorem mem_plans_of_seat (h : u ∈ s.seats p) : p ∈ s.plans := by
  obtain ⟨P, hP, -⟩ := mem_seats.1 h
  exact Dict.mem_of_get? hP

theorem mem_plans_of_ownerOf (h : s.ownerOf p = some u) : p ∈ s.plans :=
  ownerOf_isSome.1 (h ▸ rfl)

theorem mem_users_of_planOf (h : s.planOf u = some p) : u ∈ s.users := planOf_isSome.1 (h ▸ rfl)

theorem mem_users_of_ownPlans (h : q ∈ s.ownPlans u) : u ∈ s.users := by
  obtain ⟨U, hU, -⟩ := mem_ownPlans.1 h
  exact Dict.mem_of_get? hU

theorem seats_nodup (s : Store) (p : String) : (s.seats p).Nodup := by
  unfold seats
  cases s.plans.get? p with
  | none => exact List.nodup_nil
  | some P => exact P.users.keys_nodup

theorem ownPlans_nodup (s : Store) (u : String) : (s.ownPlans u).Nodup := by
  unfold ownPlans
  cases s.users.get? u with
  | none => exact List.nodup_nil
  | some U => exact U.subPlans.keys_nodup

section Changes
variable (s)

theorem seats_setPlan (name : String) (plan : Plan) (p : String) :
    (s.setPlan name plan).seats p = if p = name then plan.users.keys else s.seats p := by
  simp only [seats, setPlan, Dict.get?_set]
  split <;> rfl

theorem ownerOf_setPlan (name : String) (plan : Plan) (p : String) :
    (s.setPlan name plan).ownerOf p = if p = name then some plan.owner else s.ownerOf p := by
  simp only [ownerOf, setPlan, Dict.get?_set]
  split <;> rfl

theorem planOf_setUser (name : String) (user : User) (u : String) :
    (s.setUser name user).planOf u = if u = name then some user.plan else s.planOf u := by
  simp only [planOf, setUser, Dict.get?_set]
  split <;> rfl

theorem ownPlans_setUser (name : String) (user : User) (u : String) :
    (s.setUser name user).ownPlans u = if u = name then user.subPlans.keys else s.ownPlans u := by
  simp only [ownPlans, setUser, Dict.get?_set]
  split <;> rfl

theorem ownDomains_setUser (name : String) (user : User) (u : String) :
    (s.setUser name user).ownDomains u = if u = name then user.domains.keys else s.ownDomains u := by
  simp only [ownDomains, setUser, Dict.get?_set]
  split <;> rfl

theorem domainOwner_setDomain (name : String) (domain : Option Domain) (d : String) :
    (s.setDomain name domain).domainOwner d =
      if d = name then domain.map Domain.owner else s.domainOwner d := by
  simp only [domainOwner, getDomain?, setDomain, Dict.get?_set]
  split <;> rfl

theorem domainOwner_eraseDomain (name d : String) :
    (s.eraseDomain name).domainOwner d = if d = name then none else s.domainOwner d := by
  simp only [domainOwner, getDomain?, eraseDomain, Dict.get?_erase]
  split <;> rfl

theorem planOf_modifyUser {f : User → User} (hf : ∀ U, (f U).plan = U.plan) (o u : String) :
    (s.modifyUser o f).planOf u = s.planOf u := by
  simp only [planOf, modifyUser, Dict.get?_modify]
  split
  · rw [Option.map_map]
    exact congrArg (fun g => Option.map g _) (funext hf)
  · rfl

theorem ownPlans_modifyUser {f : User → User} (hf : ∀ U, (f U).subPlans = U.subPlans)
    (o u : String) : (s.modifyUser o f).ownPlans u = s.ownPlans u := by
  simp only [ownPlans, modifyUser, Dict.get?_modify]
  split
  · rw [Option.map_map]
    exact congrArg (fun g => (Option.map g _).getD []) (funext fun U => by simp [hf])
  · rfl

theorem ownDomains_modifyUser {f : User → User} (hf : ∀ U, (f U).domains = U.domains)
    (o u : String) : (s.modifyUser o f).ownDomains u = s.ownDomains u := by
  simp only [ownDomains, modifyUser, Dict.get?_modify]
  split
  · rw [Option.map_map]
    exact congrArg (fun g => (Option.map g _).getD []) (funext fun U => by simp [hf])
  · rfl

theorem mem_seats_attachUser {p' name : String} {user : User} {u p : String} :
    u ∈ (s.attachUser p' name user).seats p ↔
      u ∈ s.seats p ∨ (p = p' ∧ p ∈ s.plans ∧ u = name) := by
  simp only [mem_seats, attachUser, setUser, modifyPlan, Dict.get?_modify]
  by_cases hp : p = p'
  · subst hp
    simp only [if_pos, true_and, Option.map_eq_some_iff]
    constructor
    · rintro ⟨-, ⟨P, hP, rfl⟩, hu⟩
      rcases Dict.mem_set.1 hu with rfl | hu
      · exact .inr ⟨Dict.mem_of_get? hP, rfl⟩
      · exact .inl ⟨P, hP, hu⟩
    · rintro (⟨P, hP, hu⟩ | ⟨hp, rfl⟩)
      · exact ⟨_, ⟨P, hP, rfl⟩, Dict.mem_set.2 (.inr hu)⟩
      · obtain ⟨P, hP⟩ := Dict.mem_iff.1 hp
        exact ⟨_, ⟨P, hP, rfl⟩, Dict.mem_set.2 (.inl rfl)⟩
  · simp [hp]

theorem planOf_attachUser (p' name : String) (user : User) (u : String) :
    (s.attachUser p' name user).planOf u = if u = name then some user.plan else s.planOf u :=
  planOf_setUser _ _ _ _

theorem ownPlans_attachUser (p' name : String) (user : User) (u : String) :
    (s.attachUser p' name user).ownPlans u =
      if u = name then user.subPlans.keys else s.ownPlans u :=
  ownPlans_setUser _ _ _ _

theorem ownDomains_attachUser (p' name : String) (user : User) (u : String) :
    (s.attachUser p' name user).ownDomains u =
      if u = name then user.domains.keys else s.ownDomains u :=
  ownDomains_setUser _ _ _ _

theorem ownerOf_attachUser (p' name : String) (user : User) (p : String) :
    (s.attachUser p' name user).ownerOf p = s.ownerOf p := by
  simp only [ownerOf, attachUser, setUser, modifyPlan, Dict.get?_modify]
  split
  · rw [Option.map_map]
    rfl
  · rfl

theorem mem_ownPlans_attachPlan {o name : String} {plan : Plan} {u q : String} :
    q ∈ (s.attachPlan o name plan).ownPlans u ↔
      q ∈ s.ownPlans u ∨ (u = o ∧ u ∈ s.users ∧ q = name) := by
  simp only [mem_ownPlans, attachPlan, setPlan, modifyUser, Dict.get?_modify]
  by_cases hu : u = o
  · subst hu
    simp only [if_pos, true_and, Option.map_eq_some_iff]
    constructor
    · rintro ⟨-, ⟨U, hU, rfl⟩, hq⟩
      rcases Dict.mem_set.1 hq with rfl | hq
      · exact .inr ⟨Dict.mem_of_get? hU, rfl⟩
      · exact .inl ⟨U, hU, hq⟩
    · rintro (⟨U, hU, hq⟩ | ⟨hu, rfl⟩)
      · exact ⟨_, ⟨U, hU, rfl⟩, Dict.mem_set.2 (.inr hq)⟩
      · obtain ⟨U, hU⟩ := Dict.mem_iff.1 hu
        exact ⟨_, ⟨U, hU, rfl⟩, Dict.mem_set.2 (.inl rfl)⟩
  · simp [hu]

theorem seats_attachPlan (o name : String) (plan : Plan) (p : String) :
    (s.attachPlan o name plan).seats p = if p = name then plan.users.keys else s.seats p :=
  seats_setPlan _ _ _ _

theorem ownerOf_attachPlan (o name : String) (plan : Plan) (p : String) :
    (s.attachPlan o name plan).ownerOf p = if p = name then some plan.owner else s.ownerOf p :=
  ownerOf_setPlan _ _ _ _

theorem planOf_attachPlan (o name : String) (plan : Plan) (u : String) :
    (s.attachPlan o name plan).planOf u = s.planOf u := by
  rw [attachPlan, planOf_modifyUser]
  · rfl
  · exact fun _ => rfl

theorem ownDomains_attachPlan (o name : String) (plan : Plan) (u : String) :
    (s.attachPlan o name plan).ownDomains u = s.ownDomains u := by
  rw [attachPlan, ownDomains_modifyUser]
  · rfl
  · exact fun _ => rfl

theorem mem_ownDomains_attachDomain {o name : String} {domain : Domain} {u d : String} :
    d ∈ (s.attachDomain o name domain).ownDomains u ↔
      d ∈ s.ownDomains u ∨ (u = o ∧ u ∈ s.users ∧ d = name) := by
  simp only [mem_ownDomains, attachDomain, setDomain, modifyUser, Dict.get?_modify]
  by_cases hu : u = o
  · subst hu
    simp only [if_pos, true_and, Option.map_eq_some_iff]
    constructor
    · rintro ⟨-, ⟨U, hU, rfl⟩, hd⟩
      rcases Dict.mem_set.1 hd with rfl | hd
      · exact .inr ⟨Dict.mem_of_get? hU, rfl⟩
      · exact .inl ⟨U, hU, hd⟩
    · rintro (⟨U, hU, hd⟩ | ⟨hu, rfl⟩)
      · exact ⟨_, ⟨U, hU, rfl⟩, Dict.mem_set.2 (.inr hd)⟩
      · obtain ⟨U, hU⟩ := Dict.mem_iff.1 hu
        exact ⟨_, ⟨U, hU, rfl⟩, Dict.mem_set.2 (.inl rfl)⟩
  · simp [hu]

theorem domainOwner_attachDomain (o name : String) (domain : Domain) (d : String) :
    (s.attachDomain o name domain).domainOwner d =
      if d = name then some domain.owner else s.domainOwner d :=
  domainOwner_setDomain _ _ _ _

theorem planOf_attachDomain (o name : String) (domain : Domain) (u : String) :
    (s.attachDomain o name domain).planOf u = s.planOf u := by
  refine planOf_modifyUser s ?_ o u
  exact fun _ => rfl

theorem ownPlans_attachDomain (o name : String) (domain : Domain) (u : String) :
    (s.attachDomain o name domain).ownPlans u = s.ownPlans u := by
  refine ownPlans_modifyUser s ?_ o u
  exact fun _ => rfl

theorem mem_ownDomains_detachDomain {o name : String} {u d : String} :
    d ∈ (s.detachDomain o name).ownDomains u ↔ d ∈ s.ownDomains u ∧ ¬(u = o ∧ d = name) := by
  simp only [mem_ownDomains, detachDomain, modifyUser, Dict.get?_modify]
  by_cases hu : u = o
  · subst hu
    simp only [if_pos, true_and, Option.map_eq_some_iff]
    constructor
    · rintro ⟨-, ⟨U, hU, rfl⟩, hd⟩
      obtain ⟨hne, hd⟩ := Dict.mem_erase.1 hd
      exact ⟨⟨U, hU, hd⟩, hne⟩
    · rintro ⟨⟨U, hU, hd⟩, hne⟩
      exact ⟨_, ⟨U, hU, rfl⟩, Dict.mem_erase.2 ⟨hne, hd⟩⟩
  · simp [hu]

theorem planOf_detachDomain (o name u : String) :
    (s.detachDomain o name).planOf u = s.planOf u := by
  refine planOf_modifyUser s ?_ o u
  exact fun _ => rfl

theorem ownPlans_detachDomain (o name u : String) :
    (s.detachDomain o name).ownPlans u = s.ownPlans u := by
  refine ownPlans_modifyUser s ?_ o u
  exact fun _ => rfl

end Changes
section Removals
variable (s)

theorem seats_removePlan (o name : String) (arr : Report) (p : String) :
    (s.removePlan o name arr).seats p = if p = name ∨ p ∈ arr.plans then [] else s.seats p := by
  simp only [seats, removePlan, Dict.get?_eraseAll, Dict.get?_erase]
  by_cases hp : p ∈ arr.plans
  · simp [hp]
  · by_cases hn : p = name <;> simp [hp, hn]

theorem ownerOf_removePlan (o name : String) (arr : Report) (p : String) :
    (s.removePlan o name arr).ownerOf p =
      if p = name ∨ p ∈ arr.plans then none else s.ownerOf p := by
  simp only [ownerOf, removePlan, Dict.get?_eraseAll, Dict.get?_erase]
  by_cases hp : p ∈ arr.plans
  · simp [hp]
  · by_cases hn : p = name <;> simp [hp, hn]

theorem get?_users_removePlan (o name : String) (arr : Report) (u : String) :
    (s.removePlan o name arr).users.get? u =
      if u ∈ arr.users then none
      else if u = o then (s.users.get? u).map (fun U => { U with subPlans := U.subPlans.erase name })
      else s.users.get? u := by
  simp only [removePlan, Dict.get?_eraseAll, Dict.get?_modify]

theorem planOf_removePlan (o name : String) (arr : Report) (u : String) :
    (s.removePlan o name arr).planOf u = if u ∈ arr.users then none else s.planOf u := by
  rw [planOf, get?_users_removePlan]
  split
  · rfl
  · split
    · rw [Option.map_map]
      rfl
    · rfl

theorem mem_ownPlans_removePlan {o name : String} {arr : Report} {u q : String} :
    q ∈ (s.removePlan o name arr).ownPlans u ↔
      u ∉ arr.users ∧ q ∈ s.ownPlans u ∧ ¬(u = o ∧ q = name) := by
  simp only [mem_ownPlans, get?_users_removePlan]
  by_cases hu : u ∈ arr.users
  · simp [hu]
  · by_cases ho : u = o
    · subst ho
      simp only [if_neg hu, if_pos, Option.map_eq_some_iff]
      simp only [hu, not_false_iff, true_and]
      constructor
      · rintro ⟨-, ⟨U, hU, rfl⟩, hq⟩
        obtain ⟨hne, hq⟩ := Dict.mem_erase.1 hq
        exact ⟨⟨U, hU, hq⟩, hne⟩
      · rintro ⟨⟨U, hU, hq⟩, hne⟩
        exact ⟨_, ⟨U, hU, rfl⟩, Dict.mem_erase.2 ⟨hne, hq⟩⟩
    · simp [hu, ho]

theorem ownDomains_removePlan (o name : String) (arr : Report) (u : String) :
    (s.removePlan o name arr).ownDomains u = if u ∈ arr.users then [] else s.ownDomains u := by
  rw [ownDomains, get?_users_removePlan]
  split
  · rfl
  · split
    · rw [Option.map_map]
      rfl
    · rfl

theorem getDomain?_removePlan (o name : String) (arr : Report) (d : String) :
    (s.removePlan o name arr).getDomain? d = if d ∈ arr.domains then none else s.getDomain? d := by
  simp only [getDomain?, removePlan, Dict.get?_eraseAll]
  split <;> rfl

theorem domainOwner_removePlan (o name : String) (arr : Report) (d : String) :
    (s.removePlan o name arr).domainOwner d =
      if d ∈ arr.domains then none else s.domainOwner d := by
  rw [domainOwner, getDomain?_removePlan]
  split <;> rfl

theorem mem_seats_detachUser {name u p : String} :
    u ∈ (s.detachUser name).seats p ↔ u ∈ s.seats p ∧ u ≠ name := by
  simp only [mem_seats, detachUser, Dict.get?_mapVals, Option.map_eq_some_iff]
  constructor
  · rintro ⟨-, ⟨P, hP, rfl⟩, hu⟩
    obtain ⟨hne, hu⟩ := Dict.mem_erase.1 hu
    exact ⟨⟨P, hP, hu⟩, hne⟩
  · rintro ⟨⟨P, hP, hu⟩, hne⟩
    exact ⟨_, ⟨P, hP, rfl⟩, Dict.mem_erase.2 ⟨hne, hu⟩⟩

theorem ownerOf_detachUser (name p : String) : (s.detachUser name).ownerOf p = s.ownerOf p := by
  rw [ownerOf, detachUser, Dict.get?_mapVals, Option.map_map]
  rfl

theorem planOf_eraseUser (name u : String) :
    (s.eraseUser name).planOf u = if u = name then none else s.planOf u := by
  simp only [planOf, eraseUser, Dict.get?_erase]
  split <;> rfl

theorem ownPlans_eraseUser (name u : String) :
    (s.eraseUser name).ownPlans u = if u = name then [] else s.ownPlans u := by
  simp only [ownPlans, eraseUser, Dict.get?_erase]
  split <;> rfl

end Removals
end Store
end JXPanel

import JXPanel.Deletes
import JXPanel.Suspension

namespace JXPanel
set_option autoImplicit true

/-- The owner that a new record gets: the options override the store's own choice. -/
def ownerGiven (opts : Obj) (o : String) : String := overlay opts "owner" JsVal.toKey o

def planGiven (opts : Obj) (p : String) : String := overlay opts "plan" JsVal.toKey p

def usersGiven (opts : Obj) : KeySet := overlay opts "users" JsVal.toKeySet .empty

def subPlansGiven (opts : Obj) : KeySet := overlay opts "subPlans" JsVal.toKeySet .empty

def domainsGiven (opts : Obj) : KeySet := overlay opts "domains" JsVal.toKeySet .empty

theorem Plan.new_ok {name o : String} {opts : Obj} {plan : Plan} (h : Plan.new name o opts = .ok plan) :
    plan.owner = ownerGiven opts o ∧ plan.users = usersGiven opts := by
  unfold Plan.new at h
  obtain ⟨_, -, h⟩ := Collect.bind_ok.1 h
  obtain ⟨_, -, h⟩ := Collect.bind_ok.1 h
  obtain ⟨_, -, h⟩ := Collect.bind_ok.1 h
  obtain ⟨_, -, h⟩ := Collect.bind_ok.1 h
  obtain ⟨_, -, h⟩ := Collect.bind_ok.1 h
  cases h
  exact ⟨Plan.extend_owner _ _, Plan.extend_users _ _⟩

namespace Store
variable {s s' : Store}

/-- A call that changes neither users nor plans keeps their references. -/
theorem Integrity.of_domains (h : Integrity s) (hseats : ∀ p, s'.seats p = s.seats p)
    (hplan : ∀ u, s'.planOf u = s.planOf u) (hplans : ∀ u, s'.ownPlans u = s.ownPlans u)
    (howner : ∀ p, s'.ownerOf p = s.ownerOf p)
    (hdomain : ∀ d u, s'.domainOwner d = some u ↔ d ∈ s'.ownDomains u)
    (hfilled : ∀ d ∈ s'.domains, (s'.getDomain? d).isSome) : Integrity s' := by
  refine ⟨fun u p => ?_, fun p u hu hp => ?_, fun p u hp => ?_, hdomain, hfilled⟩
  · rw [hplan, hseats]
    exact h.seat u p
  · rw [howner] at hp
    rw [hplans]
    exact h.plan p u hu hp
  · rw [hplans] at hp
    rw [howner]
    exact h.owned p u hp

theorem Integrity.empty : Integrity Store.empty where
  seat _ _ := ⟨nofun, nofun⟩
  plan _ _ _ h := nomatch h
  owned _ _ h := nomatch h
  domain _ _ := ⟨nofun, nofun⟩
  filled _ h := nomatch h

section Steps
variable (h : Integrity s)
include h

theorem Integrity.seats_absent (hp : p ∉ s.plans) (u : String) : s.planOf u ≠ some p :=
  fun hu => hp (mem_plans_of_seat ((h.seat u p).1 hu))

/-- A new plan without users, listed by its owner if that is a user. -/
theorem Integrity.newPlan {plan : Plan} (hname : name ∉ s.plans) (hu : plan.users.keys = [])
    (hseats : ∀ p, s'.seats p = if p = name then plan.users.keys else s.seats p)
    (howner : ∀ p, s'.ownerOf p = if p = name then some plan.owner else s.ownerOf p)
    (hplan : ∀ u, s'.planOf u = s.planOf u) (hdomains : ∀ u, s'.ownDomains u = s.ownDomains u)
    (hmaps : s'.domains = s.domains)
    (hplans : ∀ u q, q ∈ s'.ownPlans u → q ∈ s.ownPlans u ∨ (q = name ∧ u = plan.owner))
    (hkept : ∀ u q, q ∈ s.ownPlans u → q ∈ s'.ownPlans u)
    (hlisted : plan.owner ≠ superUser → name ∈ s'.ownPlans plan.owner) : Integrity s' := by
  have hown : ∀ d, s'.domainOwner d = s.domainOwner d := fun d => by
    rw [domainOwner, getDomain?, hmaps]
    rfl
  refine ⟨fun u p => ?_, fun p u hsu hp => ?_, fun p u hp => ?_, fun d u => ?_, fun d hd => ?_⟩
  · rw [hplan, hseats]
    by_cases hp : p = name
    · rw [if_pos hp, hu, hp]
      exact ⟨fun hpl => (h.seats_absent hname u hpl).elim, fun hm => absurd hm List.not_mem_nil⟩
    · rw [if_neg hp]
      exact h.seat u p
  · rw [howner] at hp
    by_cases hpn : p = name
    · rw [if_pos hpn] at hp
      cases hp
      exact hpn ▸ hlisted hsu
    · rw [if_neg hpn] at hp
      exact hkept u p (h.plan p u hsu hp)
  · rw [howner]
    rcases hplans u p hp with hp | ⟨rfl, rfl⟩
    · have hpu := h.owned p u hp
      rw [if_neg fun (hpn : p = name) => hname (hpn ▸ mem_plans_of_ownerOf hpu)]
      exact hpu
    · rw [if_pos rfl]
  · rw [hown, hdomains]
    exact h.domain d u
  · rw [getDomain?, hmaps]
    exact h.filled d (hmaps ▸ hd)

theorem Integrity.setNewPlan {plan : Plan} (hname : name ∉ s.plans) (hu : plan.users.keys = [])
    (ho : plan.owner = superUser) : Integrity (s.setPlan name plan) :=
  h.newPlan hname hu (seats_setPlan s name plan) (ownerOf_setPlan s name plan) (fun _ => rfl)
    (fun _ => rfl) rfl (fun _ _ => .inl) (fun _ _ hq => hq) (fun hn => (hn ho).elim)

theorem Integrity.attachPlan {plan : Plan} (hname : name ∉ s.plans) (hu : plan.users.keys = [])
    (ho : plan.owner ∈ s.users) : Integrity (s.attachPlan plan.owner name plan) :=
  h.newPlan hname hu (seats_attachPlan s _ name plan) (ownerOf_attachPlan s _ name plan)
    (planOf_attachPlan s _ name plan) (ownDomains_attachPlan s _ name plan) rfl
    (fun _ _ hq => ((mem_ownPlans_attachPlan s).1 hq).imp_right fun hn => ⟨hn.2.2, hn.1⟩)
    (fun _ _ hq => (mem_ownPlans_attachPlan s).2 (.inl hq))
    (fun _ => (mem_ownPlans_attachPlan s).2 (.inr ⟨rfl, ho, rfl⟩))

theorem Integrity.attachUser (user : User) (hname : name ∉ s.users) (hp : user.plan ∈ s.plans)
    (hsub : ∀ q ∈ user.subPlans, s.ownerOf q = some name)
    (hdom : ∀ d ∈ user.domains, s.domainOwner d = some name) :
    Integrity (s.attachUser user.plan name user) := by
  have hplan : s.planOf name = none := Option.not_isSome_iff_eq_none.1 (mt planOf_isSome.1 hname)
  refine ⟨fun u p => ?_, fun p u hu hpu => ?_, fun p u hpu => ?_, fun d u => ?_, h.filled⟩
  · rw [planOf_attachUser, mem_seats_attachUser, ← h.seat]
    by_cases hu : u = name
    · subst hu
      rw [if_pos rfl, hplan]
      constructor
      · intro hpl
        cases hpl
        exact .inr ⟨rfl, hp, rfl⟩
      · rintro (hn | ⟨rfl, -, -⟩)
        · cases hn
        · rfl
    · rw [if_neg hu]
      exact ⟨.inl, fun hn => hn.resolve_right fun hn => hu hn.2.2⟩
  · rw [ownerOf_attachUser] at hpu
    rw [ownPlans_attachUser]
    have hlist := h.plan p u hu hpu
    rw [if_neg fun (hn : u = name) => hname (hn ▸ mem_users_of_ownPlans hlist)]
    exact hlist
  · rw [ownPlans_attachUser] at hpu
    rw [ownerOf_attachUser]
    split at hpu
    · rename_i hu
      exact hu ▸ hsub p hpu
    · exact h.owned p u hpu
  · rw [ownDomains_attachUser]
    change s.domainOwner d = some u ↔ _
    split
    · rename_i hu
      subst hu
      refine ⟨fun hd => ?_, hdom d⟩
      obtain ⟨U, hU, -⟩ := mem_ownDomains.1 ((h.domain d u).1 hd)
      exact (hname (Dict.mem_of_get? hU)).elim
    · exact h.domain d u

theorem Integrity.attachDomain (domain : Domain) (hname : s.domainOwner name = none)
    (ho : domain.owner ∈ s.users) : Integrity (s.attachDomain domain.owner name domain) := by
  refine h.of_domains (fun _ => rfl) (planOf_attachDomain s _ name domain)
    (ownPlans_attachDomain s _ name domain) (fun _ => rfl) (fun d u => ?_) (fun d hd => ?_)
  · rw [domainOwner_attachDomain, mem_ownDomains_attachDomain, ← h.domain]
    by_cases hd : d = name
    · subst hd
      rw [if_pos rfl, hname]
      constructor
      · intro hu
        cases hu
        exact .inr ⟨rfl, ho, rfl⟩
      · rintro (hn | ⟨rfl, -, -⟩)
        · cases hn
        · rfl
    · rw [if_neg hd]
      exact ⟨.inl, fun hn => hn.resolve_right fun hn => hd hn.2.2⟩
  · change ((s.domains.set name (some domain)).get? d).join.isSome
    rw [Dict.get?_set]
    split
    · rfl
    · rename_i hne
      exact h.filled d ((Dict.mem_set.1 hd).resolve_left hne)

theorem Integrity.setUser {user data : User} (hu : s.users.get? name = some user)
    (hp : data.plan = user.plan) (hd : user.domains.keys = data.domains.keys)
    (hs : user.subPlans.keys = data.subPlans.keys) : Integrity (s.setUser name data) := by
  have hplan : ∀ u, (s.setUser name data).planOf u = s.planOf u := fun u => by
    rw [planOf_setUser]
    split
    · rename_i hn
      rw [hn, planOf_of_get? hu, hp]
    · rfl
  have hplans : ∀ u, (s.setUser name data).ownPlans u = s.ownPlans u := fun u => by
    rw [ownPlans_setUser]
    split
    · rename_i hn
      rw [hn, ownPlans_of_get? hu, hs]
    · rfl
  refine h.of_domains (fun _ => rfl) hplan hplans (fun _ => rfl) (fun d u => ?_) h.filled
  rw [ownDomains_setUser]
  split
  · rename_i hn
    rw [← hd, ← ownDomains_of_get? hu, hn]
    exact h.domain d name
  · exact h.domain d u

/-- A plan record may change in everything but its owner and its users. -/
theorem Integrity.setPlan {plan data : Plan} (hp : s.plans.get? name = some plan)
    (ho : data.owner = plan.owner) (hu : ∀ u, u ∈ data.users ↔ u ∈ plan.users) :
    Integrity (s.setPlan name data) := by
  have howner : ∀ p, (s.setPlan name data).ownerOf p = s.ownerOf p := fun p => by
    rw [ownerOf_setPlan]
    split
    · rename_i hn
      rw [hn, ownerOf_of_get? hp, ho]
    · rfl
  refine ⟨fun u p => ?_, fun p u hsu hpu => ?_, fun p u hpu => ?_, h.domain, h.filled⟩
  · rw [seats_setPlan]
    split
    · rename_i hn
      rw [Dict.mem_keys, hu, ← Dict.mem_keys, ← seats_of_get? hp, hn]
      exact h.seat u name
    · exact h.seat u p
  · rw [howner] at hpu
    exact h.plan p u hsu hpu
  · rw [howner]
    exact h.owned p u hpu

/-- Another record under the name of a domain, listed by the same owner. -/
theorem Integrity.setDomain (domain : Domain) (hd : s.domainOwner name = some domain.owner) :
    Integrity (s.setDomain name (some domain)) := by
  refine h.of_domains (fun _ => rfl) (fun _ => rfl) (fun _ => rfl) (fun _ => rfl) (fun d u => ?_)
    (fun d hm => ?_)
  · rw [domainOwner_setDomain]
    split
    · rename_i hn
      subst hn
      rw [Option.map_some, ← hd]
      exact h.domain d u
    · exact h.domain d u
  · change ((s.domains.set name (some domain)).get? d).join.isSome
    rw [Dict.get?_set]
    split
    · rfl
    · rename_i hne
      exact h.filled d ((Dict.mem_set.1 hm).resolve_left hne)

/-- A domain handed over from one owner to another. -/
theorem Integrity.moveDomain (domain : Domain) (hd : s.domainOwner name = some o)
    (ho : domain.owner ∈ s.users) (hne : domain.owner ≠ o) :
    Integrity (((s.setDomain name none).attachDomain domain.owner name domain).detachDomain o
      name) := by
  refine h.of_domains (fun _ => rfl) (fun u => ?_) (fun u => ?_) (fun _ => rfl) (fun d u => ?_)
    (fun d hm => ?_)
  · rw [planOf_detachDomain, planOf_attachDomain]
    rfl
  · rw [ownPlans_detachDomain, ownPlans_attachDomain]
    rfl
  · rw [mem_ownDomains_detachDomain, mem_ownDomains_attachDomain]
    change ((s.setDomain name none).attachDomain domain.owner name domain).domainOwner d = some u ↔
      (d ∈ s.ownDomains u ∨ u = domain.owner ∧ u ∈ s.users ∧ d = name) ∧ ¬(u = o ∧ d = name)
    rw [domainOwner_attachDomain, domainOwner_setDomain, ← h.domain]
    by_cases hdn : d = name
    · subst hdn
      rw [if_pos rfl, hd]
      constructor
      · intro hu
        cases hu
        exact ⟨.inr ⟨rfl, ho, rfl⟩, fun hn => hne hn.1⟩
      · rintro ⟨hn | ⟨rfl, -, -⟩, hno⟩
        · exact (hno ⟨(Option.some.inj hn).symm, rfl⟩).elim
        · rfl
    · simp [hdn]
  · change (((s.domains.set name none).set name (some domain)).get? d).join.isSome
    rw [Dict.get?_set]
    split
    · rfl
    · rename_i hdn
      rw [Dict.get?_set_ne _ _ hdn]
      exact h.filled d ((Dict.mem_set.1 ((Dict.mem_set.1 hm).resolve_left hdn)).resolve_left hdn)

end Steps
/-- When a call keeps every reference answered: the options of an add and the data of an update
leave the references to the store, a user stays in his plan, a domain goes to a user that is
there, and no plan below a deleted one is deeper than a delete goes. -/
def KeepsLinks (s : Store) : Call → Prop
  | .addPlan none name opts => ∀ plan, name ∉ s.plans → Plan.new name superUser opts = .ok plan →
      ownerGiven opts superUser = superUser ∧ (usersGiven opts).keys = []
  | .addPlan (some o) name opts => ∀ user parent plan, name ∉ s.plans →
      s.users.get? o = some user → s.plans.get? user.plan = some parent →
      parent.checkAddPlan (limitsOf opts) = .ok none → Plan.new name user.name opts = .ok plan →
      ownerGiven opts user.name = o ∧ (usersGiven opts).keys = []
  | .addUser p name opts => ∀ parent, name ∉ s.users → s.plans.get? p = some parent →
      s.checkAddUser parent = .ok none →
      planGiven opts parent.name = p ∧ (∀ q ∈ subPlansGiven opts, s.ownerOf q = some name) ∧
        ∀ d ∈ domainsGiven opts, s.domainOwner d = some name
  | .addDomain o name opts => ∀ user plan, s.getDomain? name = none →
      s.users.get? o = some user → s.plans.get? user.plan = some plan →
      s.checkAddDomain plan = .ok none → ownerGiven opts user.name = o
  | .updateUser name data => ∀ user, s.users.get? name = some user →
      s.updateUserCheck user data = .ok () → data.plan = user.plan
  | .updateDomain name data => ∀ domain user, s.getDomain? name = some domain →
      s.users.get? domain.owner = some user →
      if data.owner = user.name then user.name = domain.owner
      else ∃ owner, s.users.get? data.owner = some owner ∧
        ∀ plan, s.plans.get? owner.plan = some plan →
          ∃ res, s.checkAddDomain plan = .ok res ∧ (res = none → data.owner ≠ domain.owner)
  | .updatePlan name (.copy data) => ∀ plan user parent, s.plans.get? name = some plan →
      data.owner = plan.owner → s.users.get? plan.owner = some user →
      s.plans.get? user.plan = some parent → parent.checkAddPlan data.limits = .ok none →
      ∀ u, u ∈ data.users ↔ u ∈ plan.users
  | .deleteUser name => ∀ p ∈ s.ownPlans name, s.Shallow p
  | .deletePlan name => ∀ o, s.ownerOf name = some o → o ∈ s.users → s.Shallow name
  | _ => True

/-- Giving a domain its old record back. -/
theorem Integrity.restoreDomain {domain : Domain} (h : Integrity s)
    (hd : s.domainOwner name = some domain.owner) :
    Integrity ((s.setDomain name none).setDomain name (some domain)) := by
  refine h.of_domains (fun _ => rfl) (fun _ => rfl) (fun _ => rfl) (fun _ => rfl) (fun d u => ?_)
    (fun d hm => ?_)
  · rw [domainOwner_setDomain, domainOwner_setDomain]
    split
    · rename_i hn
      subst hn
      rw [Option.map_some, ← hd]
      exact h.domain d u
    · exact h.domain d u
  · change (((s.domains.set name none).set name (some domain)).get? d).join.isSome
    rw [Dict.get?_set]
    split
    · rfl
    · rename_i hdn
      rw [Dict.get?_set_ne _ _ hdn]
      exact h.filled d ((Dict.mem_set.1 ((Dict.mem_set.1 hm).resolve_left hdn)).resolve_left hdn)

theorem Integrity.updateDomain (h : Integrity s) {data : Domain}
    (hc : KeepsLinks s (.updateDomain name data)) : Integrity (s.updateDomain name data).1 := by
  cases hD : s.getDomain? name with
  | none =>
    rw [Store.updateDomain, hD]
    exact h
  | some domain =>
    have hown : s.domainOwner name = some domain.owner := by rw [domainOwner, hD]; rfl
    obtain ⟨user, hU, -⟩ := mem_ownDomains.1 ((h.domain name domain.owner).1 hown)
    have hc := hc domain user hD hU
    by_cases heq : data.owner = user.name
    · rw [if_pos heq] at hc
      rw [updateDomain_same hD hU heq]
      refine h.setDomain (Domain.new name user.name data.toObj) ?_
      rw [hown, Domain.new_toObj_owner, heq, hc]
    · rw [if_neg heq] at hc
      obtain ⟨owner, howner, hplans⟩ := hc
      have hseat := (h.seat data.owner owner.plan).1 (planOf_of_get? howner)
      obtain ⟨plan, hplan⟩ := Dict.mem_iff.1 (mem_plans_of_seat hseat)
      obtain ⟨res, hres, hne⟩ := hplans plan hplan
      have hnew : (Domain.new name owner.name data.toObj).owner = data.owner :=
        Domain.new_toObj_owner _ _ _
      have hadd : (s.setDomain name none).addDomain data.owner name data.toObj =
          (s.setDomain name none).guarded (.ok res)
            ((s.setDomain name none).attachDomain data.owner name
              (Domain.new name owner.name data.toObj), .ok none) := by
        have hnone : (s.setDomain name none).getDomain? name = none := by
          simp [getDomain?, Store.setDomain]
        have howner' : (s.setDomain name none).users.get? data.owner = some owner := howner
        have hplan' : (s.setDomain name none).plans.get? owner.plan = some plan := hplan
        have hcheck : (s.setDomain name none).checkAddDomain plan = .ok res :=
          
          (checkAddDomain_congr (show (s.setDomain name none).users = s.users from rfl) rfl plan).trans
            hres
        simp only [addDomain, hnone, howner', hplan', hcheck]
        rfl
      cases res with
      | some res =>
        rw [updateDomain_moved hD hU heq hadd]
        exact h.restoreDomain hown
      | none =>
        rw [updateDomain_moved hD hU heq hadd]
        have hmove := h.moveDomain (Domain.new name owner.name data.toObj) hown
          (hnew.symm ▸ Dict.mem_of_get? howner) (hnew.symm ▸ hne rfl)
        rw [hnew] at hmove
        exact hmove

/-- A call that meets the condition leaves a consistent store consistent. -/
theorem Integrity.exec (h : Integrity s) {c : Call} (hc : KeepsLinks s c) :
    Integrity (s.exec c) := by
  cases c with
  | addPlan owner name opts =>
    change Integrity (s.addPlan owner name opts).1
    rcases hr : s.addPlan owner name opts with ⟨s', r⟩
    rcases addPlan_cases hr with ⟨rfl, -⟩ | ⟨hname, -, hadd⟩
    · exact h
    · rcases hadd with ⟨rfl, plan, hplan, rfl⟩ |
        ⟨o, user, parent, plan, rfl, hu, hp, hcheck, hplan, rfl⟩
      · obtain ⟨ho, hus⟩ := Plan.new_ok hplan
        obtain ⟨hco, hcu⟩ := hc plan hname hplan
        exact h.setNewPlan hname (hus ▸ hcu) (ho.trans hco)
      · obtain ⟨ho, hus⟩ := Plan.new_ok hplan
        obtain ⟨hco, hcu⟩ := hc user parent plan hname hu hp hcheck hplan
        have howner : plan.owner = o := ho.trans hco
        subst howner
        exact h.attachPlan hname (hus ▸ hcu) (Dict.mem_of_get? hu)
  | addUser p name opts =>
    change Integrity (s.addUser p name opts).1
    rcases hr : s.addUser p name opts with ⟨s', r⟩
    rcases addUser_cases hr with ⟨rfl, -⟩ | ⟨hname, -, parent, hp, hcheck, rfl⟩
    · exact h
    · obtain ⟨hplan, hsub, hdom⟩ := hc parent hname hp hcheck
      have hpu : (User.new name parent.name opts).plan = p := (User.extend_plan _ _).trans hplan
      have hatt := h.attachUser (User.new name parent.name opts) hname
        (by rw [hpu]; exact Dict.mem_of_get? hp)
        (by rw [User.new, User.extend_subPlans]; exact hsub)
        (by rw [User.new, User.extend_domains]; exact hdom)
      rwa [hpu] at hatt
  | addDomain o name opts =>
    change Integrity (s.addDomain o name opts).1
    rcases hr : s.addDomain o name opts with ⟨s', r⟩
    rcases addDomain_cases hr with ⟨rfl, -⟩ | ⟨hname, -, user, plan, hu, hp, hcheck, rfl⟩
    · exact h
    · have howner : (Domain.new name user.name opts).owner = o :=
        (Domain.new_owner _ _ _).trans (hc user plan hname hu hp hcheck)
      have hatt := h.attachDomain (Domain.new name user.name opts)
        (by rw [domainOwner, hname]; rfl) (by rw [howner]; exact Dict.mem_of_get? hu)
      rwa [howner] at hatt
  | updateUser name data =>
    change Integrity (s.updateUser name data).1
    rcases hr : s.updateUser name data with ⟨s', r⟩
    rcases updateUser_cases hr with ⟨rfl, -⟩ | ⟨user, hu, hcheck, rfl, -⟩
    · exact h
    · obtain ⟨-, hd, hsub⟩ := updateUserCheck_ok.1 hcheck
      exact h.setUser hu (hc user hu hcheck) hd hsub
  | updateDomain name data => exact h.updateDomain hc
  | updatePlan name data =>
    change Integrity (s.updatePlan name data).1
    rcases hr : s.updatePlan name data with ⟨s', r⟩
    rcases updatePlan_cases hr with ⟨hs, -⟩ | hupd
    · exact hs.integrity h
    · obtain ⟨s₁, data₁, plan, user, parent, hs₁, hcore, -, rfl, hp, ho, hu, hpar, hcheck⟩ := hupd
      cases data with
      | live =>
        cases data₁ with
        | live => exact hs₁.integrity h
        | copy d₁ => cases hcore
      | copy d =>
        cases data₁ with
        | live => cases hcore
        | copy d₁ =>
          have hd : d₁.core = d.core := PlanData.copy.inj hcore
          obtain ⟨P₁, hP₁, hPc⟩ := Option.map_eq_some_iff.1
            ((hs₁.plan_core name).trans (congrArg (Option.map Plan.core) hp))
          have hown : d₁.owner = P₁.owner :=
            (congrArg Plan.owner hd :).trans (ho.trans (congrArg Plan.owner hPc :).symm)
          have hus : ∀ u, u ∈ d₁.users ↔ u ∈ P₁.users := fun u => by
            have hus₁ : d₁.users = d.users := (congrArg Plan.users hd :)
            have hus₂ : P₁.users = plan.users := (congrArg Plan.users hPc :)
            rw [hus₁, hus₂]
            exact hc plan user parent hp ho hu hpar hcheck u
          exact (hs₁.integrity h).setPlan hP₁ hown hus
  | deleteDomain name =>
    change Integrity (s.deleteDomain name).1
    cases hD : s.getDomain? name with
    | none =>
      rw [Store.deleteDomain, hD]
      exact h
    | some domain =>
      rw [h.deleteDomain hD]
      exact h.detachDomain (by rw [domainOwner, hD]; rfl)
  | deleteUser name =>
    change Integrity (s.deleteUser name).1
    cases hU : s.users.get? name with
    | none =>
      rw [Store.deleteUser, hU]
      exact h
    | some user =>
      obtain ⟨s', rep, hdel, hint, -⟩ := h.deleteUser hc hU
      rw [hdel]
      exact hint
  | deletePlan name =>
    change Integrity (s.deletePlan name).1
    rcases hr : s.deletePlan name with ⟨s', r⟩
    rcases deletePlan_cases hr with ⟨rfl, -⟩ | ⟨plan, owner, arr, hp, ho, harr, rfl, -⟩
    · exact h
    · have hown := ownerOf_of_get? hp
      exact h.removePlan hown
        ((planContents_mem harr).subtree (hc _ hown (Dict.mem_of_get? ho)))
  | suspendPlan name o => exact (suspendPlan_resuspended s name o).integrity h
  | unSuspendPlan name o => exact (unSuspendPlan_resuspended s name o).integrity h
  | suspendUser name o => exact (suspendUser_resuspended s name o).integrity h
  | unSuspendUser name o => exact (unSuspendUser_resuspended s name o).integrity h

theorem integrity_installed : Integrity installed :=
  Integrity.empty.exec (c := .addPlan none unlimitedPlanName unlimitedOpts)
    fun _ _ _ => by decide

/-- In every run whose calls all meet the condition, every store reached is consistent. -/
theorem integrity_of_reached {s : Store} (h : Reached KeepsLinks s) : Integrity s :=
  h.keeps integrity_installed fun _ _ hi hc => hi.exec hc

theorem eq_of_map {α β : Type} {f : α → β} {o : Option α} {a : α} {b : β} (h : o.map f = some b)
    (ha : o = some a) : f a = b := by
  subst ha
  exact Option.some.inj h

theorem reached_sample : Reached KeepsLinks (installed.run sampleCalls) := by
  refine Runs.Reached.start.run ⟨?_, ?_, ?_, ?_, trivial⟩
  · intro parent _ hp _
    have hname := eq_of_map (f := Plan.name) (b := unlimitedPlanName) (by decide) hp
    exact ⟨hname, nofun, nofun⟩
  · intro user parent plan _ hu _ _ _
    have hname := eq_of_map (f := User.name) (b := "ann") (by decide) hu
    exact ⟨hname, by decide⟩
  · intro parent _ hp _
    have hname := eq_of_map (f := Plan.name) (b := "gold") (by decide) hp
    exact ⟨hname, nofun, nofun⟩
  · intro user plan _ hu _ _
    exact eq_of_map (f := User.name) (b := "bob") (by decide) hu

theorem shallow_of_two_levels (h : ∀ p ∈ s.plans.keys, ∀ q ∈ s.subs p, s.subs q = [])
    (p : String) : s.Shallow p := by
  intro hd
  obtain ⟨q, hq, r, hr, -⟩ := hd.of_le (show 2 ≤ deepest by decide)
  obtain ⟨u, hu, -⟩ := mem_subs.1 hq
  rw [h p (Dict.mem_keys.2 (mem_plans_of_seat hu)) q hq] at hr
  exact absurd hr List.not_mem_nil

/-- A copy of a user's record with another language. -/
def editedUser : User :=
  { User.new "bob" "gold" (Dict.ofList [("person_lang", .str "PL")]) with domains := Dict.empty.set "bob.org" () }

theorem integrity_of_reached_sample :
    ((((installed.run sampleCalls).exec (.updateUser "bob" editedUser)).users.get? "bob").map
      fun U => prop U.fields "person_lang") = some (.str "PL") ∧
    ((installed.run sampleCalls).run [.updateUser "bob" editedUser, .deletePlan "gold"]).plans.keys =
      [unlimitedPlanName] ∧
    Integrity ((installed.run sampleCalls).run [.updateUser "bob" editedUser, .deletePlan "gold"]) := by
  refine ⟨rfl, rfl, integrity_of_reached (reached_sample.run ⟨?_, ?_, trivial⟩)⟩
  · intro user hu _
    exact (eq_of_map (f := User.plan) (b := "gold") rfl hu).symm
  · intro o _ _
    exact shallow_of_two_levels (by decide) "gold"

/-- The calls that make and delete records or update them from changed copies. -/
def CopyCall (s : Store) : Call → Prop
  | .updateUser name data =>
    ∃ user changes, s.users.get? name = some user ∧ data = user.extend changes
  | .updateDomain name data =>
    ∃ domain changes, s.getDomain? name = some domain ∧ data = domain.extend changes
  | .updatePlan name (.copy data) =>
    ∃ plan changes, s.plans.get? name = some plan ∧ data = plan.extend changes
  | .updatePlan _ .live | .suspendPlan _ _ | .unSuspendPlan _ _ => False
  | .suspendUser _ _ | .unSuspendUser _ _ => False
  | _ => True

/-- A copy of a user's record with another plan of the same owner. -/
def movedUser : User :=
  { name := "bob", plan := "silver", domains := Dict.empty.set "bob.org" (), subPlans := .empty
    suspended := .bool false, fields := .empty, extra := extra_empty }

def moveCalls : List Call :=
  sampleCalls ++ [.addPlan (some "ann") "silver" (planOpts 5 5), .updateUser "bob" movedUser]

/-- A user moved from one plan to another is still listed by the plan he left. -/
theorem moved_user_still_listed : ¬ ∀ s, Reached CopyCall s → Integrity s := by
  intro h
  have hreached : Reached CopyCall (installed.run moveCalls) :=
    Runs.Reached.start.run ⟨trivial, trivial, trivial, trivial, trivial,
      ⟨_, Dict.ofList [("plan", .str "silver")], rfl, rfl⟩, trivial⟩
  have hlisted : "bob" ∈ (installed.run moveCalls).seats "gold" := by decide
  have hplan : (installed.run moveCalls).planOf "bob" = some "silver" := by decide
  have hgold := ((h _ hreached).seat "bob" "gold").2 hlisted
  exact absurd (hplan.symm.trans hgold) (by decide)

end Store
end JXPanel

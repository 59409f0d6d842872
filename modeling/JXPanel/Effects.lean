import JXPanel.Operations

namespace JXPanel
set_option autoImplicit true

namespace Store
variable {s s' : Store} {name : String}

theorem guarded_cases {check : Js (Option String)} {change : Store × Js (Option String)} {r}
    (h : s.guarded check change = (s', r)) :
    (s' = s ∧ r ≠ .ok none) ∨ (check = .ok none ∧ change = (s', r)) := by
  unfold guarded at h
  split at h
  · cases h
    exact .inl ⟨rfl, by simp⟩
  · cases h
    exact .inl ⟨rfl, by simp⟩
  · exact .inr ⟨rfl, h⟩

theorem storeNewPlan_cases {o : String} {opts : Obj} {attach : Store → Store} {r}
    (h : s.storeNewPlan o name opts attach = (s', r)) :
    (s' = s ∧ r ≠ .ok none) ∨
    (∃ plan, Plan.new name o opts = .ok plan ∧ s' = attach (s.setPlan name plan) ∧ r = .ok none) := by
  unfold storeNewPlan at h
  split at h
  · cases h
    exact .inl ⟨rfl, by simp⟩
  · rename_i plan hplan
    cases h
    exact .inr ⟨plan, hplan, rfl, rfl⟩

/-- The store after a plan was added for an owner. -/
def attachPlan (o name : String) (plan : Plan) (s : Store) : Store :=
  (s.setPlan name plan).modifyUser o (fun u => { u with subPlans := u.subPlans.set name () })

/-- The store after a user was added to a plan. -/
def attachUser (parent_plan name : String) (user : User) (s : Store) : Store :=
  (s.modifyPlan parent_plan (fun p => { p with users := p.users.set name () })).setUser name user

/-- The store after a domain was added for an owner. -/
def attachDomain (o name : String) (domain : Domain) (s : Store) : Store :=
  (s.modifyUser o (fun u => { u with domains := u.domains.set name () })).setDomain name (some domain)

/-- A plan is added only under a new name, and for a user only as his plan allows. -/
theorem addPlan_cases {owner : Option String} {opts : Obj} {r}
    (h : s.addPlan owner name opts = (s', r)) :
    (s' = s ∧ r ≠ .ok none) ∨ (name ∉ s.plans ∧ r = .ok none ∧
      ((owner = none ∧ ∃ plan, Plan.new name superUser opts = .ok plan ∧ s' = s.setPlan name plan) ∨
       (∃ o user parent plan, owner = some o ∧ s.users.get? o = some user ∧
         s.plans.get? user.plan = some parent ∧ parent.checkAddPlan (limitsOf opts) = .ok none ∧
         Plan.new name user.name opts = .ok plan ∧ s' = s.attachPlan o name plan))) := by
  unfold addPlan at h
  split at h
  · cases h
    exact .inl ⟨rfl, by simp⟩
  · rename_i hnew
    have hname : name ∉ s.plans := (not_or.1 hnew).1
    split at h
    · rcases storeNewPlan_cases h with hs | ⟨plan, hplan, rfl, rfl⟩
      · exact .inl hs
      · exact .inr ⟨hname, rfl, .inl ⟨rfl, plan, hplan, rfl⟩⟩
    · rename_i o
      split at h
      · cases h
        exact .inl ⟨rfl, by simp⟩
      · rename_i user huser
        split at h
        · cases h
          exact .inl ⟨rfl, by simp⟩
        · rename_i parent hparent
          rcases guarded_cases h with hs | ⟨hcheck, h⟩
          · exact .inl hs
          · rcases storeNewPlan_cases h with hs | ⟨plan, hplan, rfl, rfl⟩
            · exact .inl hs
            · exact .inr ⟨hname, rfl,
                .inr ⟨o, user, parent, plan, rfl, huser, hparent, hcheck, hplan, rfl⟩⟩

theorem addUser_cases {parent_plan : String} {opts : Obj} {r}
    (h : s.addUser parent_plan name opts = (s', r)) :
    (s' = s ∧ r ≠ .ok none) ∨ (name ∉ s.users ∧ r = .ok none ∧
      ∃ parent, s.plans.get? parent_plan = some parent ∧ s.checkAddUser parent = .ok none ∧
        s' = s.attachUser parent_plan name (User.new name parent.name opts)) := by
  unfold addUser at h
  split at h
  · cases h
    exact .inl ⟨rfl, by simp⟩
  · rename_i hname
    split at h
    · cases h
      exact .inl ⟨rfl, by simp⟩
    · rename_i parent hparent
      rcases guarded_cases h with hs | ⟨hcheck, h⟩
      · exact .inl hs
      · cases h
        exact .inr ⟨hname, rfl, parent, hparent, hcheck, rfl⟩

theorem addDomain_cases {owner_user : String} {opts : Obj} {r}
    (h : s.addDomain owner_user name opts = (s', r)) :
    (s' = s ∧ r ≠ .ok none) ∨ (s.getDomain? name = none ∧ r = .ok none ∧
      ∃ user plan, s.users.get? owner_user = some user ∧ s.plans.get? user.plan = some plan ∧
        s.checkAddDomain plan = .ok none ∧
        s' = s.attachDomain owner_user name (Domain.new name user.name opts)) := by
  unfold addDomain at h
  split at h
  · cases h
    exact .inl ⟨rfl, by simp⟩
  · rename_i hname
    split at h
    · cases h
      exact .inl ⟨rfl, by simp⟩
    · rename_i user huser
      split at h
      · cases h
        exact .inl ⟨rfl, by simp⟩
      · rename_i plan hplan
        rcases guarded_cases h with hs | ⟨hcheck, h⟩
        · exact .inl hs
        · cases h
          exact .inr ⟨by simpa using hname, rfl, user, plan, huser, hplan, hcheck, rfl⟩

/-- The store after a domain was taken from its owner. -/
def detachDomain (o name : String) (s : Store) : Store :=
  s.modifyUser o (fun u => { u with domains := u.domains.erase name })

theorem deleteDomain_cases {r} (h : s.deleteDomain name = (s', r)) :
    (s' = s ∧ s.getDomain? name = none ∧ ∃ f, r = .error f) ∨
    (∃ domain, s.getDomain? name = some domain ∧
      ((s.users.get? domain.owner = none ∧ s' = s.eraseDomain name ∧ r = .error .typeError) ∨
       (domain.owner ∈ s.users ∧ s' = (s.eraseDomain name).detachDomain domain.owner name ∧
         r = .ok ⟨[], [], [name]⟩))) := by
  unfold deleteDomain at h
  split at h
  · rename_i hname
    cases h
    exact .inl ⟨rfl, hname, _, rfl⟩
  · rename_i domain hdomain
    refine .inr ⟨domain, hdomain, ?_⟩
    split at h
    · rename_i hnone
      cases h
      exact .inl ⟨hnone, rfl, rfl⟩
    · rename_i user huser
      cases h
      exact .inr ⟨Dict.mem_of_get? huser, rfl, rfl⟩

theorem deletePlan_cases {r} (h : s.deletePlan name = (s', r)) :
    (s' = s ∧ ∃ f, r = .error f) ∨
    (∃ plan owner arr, s.plans.get? name = some plan ∧ s.users.get? plan.owner = some owner ∧
      s.planContents name = .ok arr ∧ s' = s.removePlan plan.owner name arr ∧ r = .ok arr) := by
  unfold deletePlan at h
  split at h
  · cases h
    exact .inl ⟨rfl, _, rfl⟩
  · rename_i plan hplan
    split at h
    · cases h
      exact .inl ⟨rfl, _, rfl⟩
    · rename_i owner howner
      split at h
      · cases h
        exact .inl ⟨rfl, _, rfl⟩
      · rename_i arr harr
        cases h
        exact .inr ⟨plan, owner, arr, hplan, howner, harr, rfl, rfl⟩

theorem deleteUser_ok {rep : Report} (h : s.deleteUser name = (s', .ok rep)) :
    ∃ user s₁ s₂, s.users.get? name = some user ∧
      deleteSubPlans user.subPlans.keys s { plans := [], users := [name], domains := [] } =
        (s₁, .ok rep) ∧
      Collect.runAll (dropDomainOf name) s₁.domains.keys (s₁.detachUser name) = (s₂, .ok ()) ∧
      s' = s₂.eraseUser name := by
  unfold deleteUser at h
  split at h
  · cases h
  · rename_i user huser
    split at h
    · cases h
    · rename_i s₁ subs hrun
      split at h
      · cases h
      · rename_i s₂ hdrop
        cases h
        exact ⟨user, s₁, s₂, huser, hrun, hdrop, rfl⟩

theorem updateUser_cases {data : User} {r} (h : s.updateUser name data = (s', r)) :
    (s' = s ∧ ∃ f, r = .error f) ∨
    (∃ user, s.users.get? name = some user ∧ s.updateUserCheck user data = .ok () ∧
      s' = s.setUser name data ∧ r = .ok none) := by
  unfold updateUser at h
  split at h
  · cases h
    exact .inl ⟨rfl, _, rfl⟩
  · rename_i user huser
    split at h
    · cases h
      exact .inl ⟨rfl, _, rfl⟩
    · rename_i hcheck
      cases h
      exact .inr ⟨user, huser, hcheck, rfl, rfl⟩

/-- An accepted update leaves the domains and the plans of a user as they were. -/
theorem updateUserCheck_ok {user data : User} :
    s.updateUserCheck user data = .ok () ↔
      s.moveCheck user data = .ok () ∧ user.domains.keys = data.domains.keys ∧
        user.subPlans.keys = data.subPlans.keys := by
  unfold updateUserCheck
  cases hmove : s.moveCheck user data with
  | error f => simp
  | ok r =>
    by_cases hdomains : user.domains.keys = data.domains.keys
    · by_cases hplans : user.subPlans.keys = data.subPlans.keys
      · simp [hdomains, hplans]
      · simp [hdomains, hplans]
    · simp [hdomains]

theorem updateDomain_same {domain data : Domain} {user : User}
    (hD : s.getDomain? name = some domain) (hU : s.users.get? domain.owner = some user)
    (heq : data.owner = user.name) :
    s.updateDomain name data =
      (s.setDomain name (some (Domain.new name user.name data.toObj)), .ok none) := by
  simp only [updateDomain, hD, hU, ne_eq, heq, not_true_eq_false, if_false]

theorem updateDomain_moved {domain data : Domain} {user : User} {s₁ : Store} {r}
    (hD : s.getDomain? name = some domain) (hU : s.users.get? domain.owner = some user)
    (hne : data.owner ≠ user.name)
    (hadd : (s.setDomain name none).addDomain data.owner name data.toObj = (s₁, r)) :
    s.updateDomain name data =
      match r with
      | .error f => (s₁, .error f)
      | .ok (some res) => (s₁.setDomain name (some domain), .ok (some res))
      | .ok none => (s₁.detachDomain domain.owner name, .ok none) := by
  simp only [updateDomain, hD, hU, ne_eq, hne, not_false_eq_true, if_true, hadd]
  cases r with
  | error f => rfl
  | ok res => cases res <;> rfl

section Reads
variable (hu : s'.users = s.users) (hp : s'.plans = s.plans)
include hu hp

/-- The counts read nothing but the users and the plans. -/
theorem total_congr (m : Measure) (n : Nat) (p : Plan) : s'.total m n p = s.total m n p := by
  induction n generalizing p with
  | zero => rfl
  | succ n ih => simp only [total, hu, hp, ih]

theorem walkUp_congr (m : Measure) (n : Nat) (owner : Option User) :
    s'.walkUp m n owner = s.walkUp m n owner := by
  induction n generalizing owner with
  | zero => cases owner <;> rfl
  | succ n ih =>
    cases owner with
    | none => rfl
    | some owner => simp only [walkUp, fuel, hu, hp, ih, total_congr hu hp]

theorem checkTotal_congr (m : Measure) (p : Plan) : s'.checkTotal m p = s.checkTotal m p := by
  simp only [checkTotal, fuel, hu, hp, total_congr hu hp, walkUp_congr hu hp]

theorem checkAddDomain_congr (p : Plan) : s'.checkAddDomain p = s.checkAddDomain p := by
  simp only [checkAddDomain, checkTotal_congr hu hp]

end Reads

end Store
end JXPanel

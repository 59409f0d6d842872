import JXPanel.Fitting
import JXPanel.Consistency

namespace JXPanel
set_option autoImplicit true

def nameGiven (opts : Obj) (name : String) : String := overlay opts "name" JsVal.toKey name

/-- A limit that is given is a count. A plan without a limit, or with the limit 0, is refused. -/
def WholeLimits (opts : Obj) : Prop :=
  ∀ k ∈ ["maxUserCount", "maxDomainCount"], (prop opts k).truthy → ∃ n, prop opts k = .ofNat n

theorem checkSet_ok {k : String} {opts : Obj} {v : JsVal} (h : checkSet k opts false = .ok v) :
    v = prop opts k ∧ v.truthy := by
  simp only [checkSet, Bool.false_and, Bool.or_false] at h
  split at h
  · rename_i ht
    cases h
    exact ⟨rfl, ht⟩
  · cases h

theorem overlay_prop (opts : Obj) (k : String) : overlay opts k id (prop opts k) = prop opts k := by
  rw [overlay, prop]
  cases opts.get? k <;> rfl

theorem Plan.new_limit {name o : String} {opts : Obj} {plan : Plan}
    (h : Plan.new name o opts = .ok plan) (hw : WholeLimits opts) (hm : Measure.Counts m) :
    ∃ n, m.limit plan = .ofNat n := by
  unfold Plan.new at h
  obtain ⟨d, hd, h⟩ := Collect.bind_ok.1 h
  obtain ⟨u, hu, h⟩ := Collect.bind_ok.1 h
  obtain ⟨_, -, h⟩ := Collect.bind_ok.1 h
  obtain ⟨_, -, h⟩ := Collect.bind_ok.1 h
  obtain ⟨_, -, h⟩ := Collect.bind_ok.1 h
  cases h
  obtain ⟨rfl, hdt⟩ := checkSet_ok hd
  obtain ⟨rfl, hut⟩ := checkSet_ok hu
  cases hm with
  | user =>
    obtain ⟨n, hn⟩ := hw "maxUserCount" (by simp) hut
    exact ⟨n, (Plan.extend_maxUserCount _ _).trans ((overlay_prop _ _).trans hn)⟩
  | domain =>
    obtain ⟨n, hn⟩ := hw "maxDomainCount" (by simp) hdt
    exact ⟨n, (Plan.extend_maxDomainCount _ _).trans ((overlay_prop _ _).trans hn)⟩

theorem Plan.new_name {name o : String} {opts : Obj} {plan : Plan}
    (h : Plan.new name o opts = .ok plan) :
    plan.name = nameGiven opts name ∧ plan.suspended = overlay opts "suspended" id (.bool false) := by
  unfold Plan.new at h
  obtain ⟨_, -, h⟩ := Collect.bind_ok.1 h
  obtain ⟨_, -, h⟩ := Collect.bind_ok.1 h
  obtain ⟨_, -, h⟩ := Collect.bind_ok.1 h
  obtain ⟨_, -, h⟩ := Collect.bind_ok.1 h
  obtain ⟨_, -, h⟩ := Collect.bind_ok.1 h
  cases h
  exact ⟨Plan.extend_name _ _, Plan.extend_suspended _ _⟩

namespace Store
variable {s s' : Store}

/-- When a call keeps the quotas: new records have names, and the fields that the store gives
them, the limits of a new plan are counts, and a plan that is unsuspended fits. -/
def KeepsQuota (s : Store) : Call → Prop
  | .addPlan owner name opts => name ≠ "" ∧ nameGiven opts name = name ∧
      ownerGiven opts (owner.getD superUser) = owner.getD superUser ∧
      (usersGiven opts).keys = [] ∧ WholeLimits opts
  | .addUser p name opts => name ≠ "" ∧ nameGiven opts name = name ∧ planGiven opts p = p ∧
      (subPlansGiven opts).keys = [] ∧ (domainsGiven opts).keys = []
  | .unSuspendPlan name o => s.Activates name o → s.Fits name
  | .unSuspendUser name o => ∀ U v, s.users.get? name = some U →
      removeReason U.suspended o = .ok v →
      FitsEach o U.subPlans.keys (s.setUser name { U with suspended := v })
  | .updateUser _ _ => False
  | .updateDomain _ _ => False
  | .updatePlan _ _ => False
  | _ => True

theorem ownPlans_attachPlan (s : Store) (o name : String) (plan : Plan) (u : String) :
    (s.attachPlan o name plan).ownPlans u = s.ownPlans u ∨
      ((s.attachPlan o name plan).ownPlans u = s.ownPlans u ++ [name] ∧ u = o) := by
  simp only [ownPlans, attachPlan, setPlan, modifyUser, Dict.get?_modify]
  by_cases hu : u = o
  · rw [if_pos hu]
    cases hU : s.users.get? u with
    | none => exact .inl rfl
    | some U =>
      by_cases hn : name ∈ U.subPlans
      · exact .inl (Dict.keys_set_of_mem hn ())
      · exact .inr ⟨Dict.keys_set_of_absent hn (), hu⟩
  · rw [if_neg hu]
    exact .inl rfl

theorem weighs_attachPlan (s : Store) (o name : String) (plan : Plan)
    (hm : Measure.Counts m) (u : String) :
    (s.attachPlan o name plan).weighs m u = s.weighs m u := by
  simp only [weighs, attachPlan, setPlan, modifyUser, Dict.get?_modify]
  split
  · rw [Option.map_map]
    cases hm <;> rfl
  · rfl

section Steps
variable (h : Sound s)
include h

theorem Sound.setNewPlan {plan : Plan} (hname : name ∉ s.plans) (hn : name ≠ "")
    (hp : plan.name = name ∧ plan.owner = superUser ∧ plan.users.keys = [])
    (hlimit : ∀ m, Measure.Counts m → ∃ n, m.limit plan = .ofNat n) :
    Sound (s.setPlan name plan) := by
  obtain ⟨hpn, hpo, hpu⟩ := hp
  have hplans : (s.setPlan name plan).plans = s.plans.set name plan := rfl
  apply h.newPlan hname hpu hplans (fun _ => rfl) (fun _ => .inl rfl)
  · intro m hm u
    rfl
  · exact h.named.user
  · exact ⟨hpn, hn, by rw [hpo]; decide⟩
  · exact hlimit

theorem Sound.attachPlan {plan : Plan} (hname : name ∉ s.plans) (hn : name ≠ "")
    (ho : o ∈ s.users) (hp : plan.name = name ∧ plan.owner = o ∧ plan.users.keys = [])
    (hlimit : ∀ m, Measure.Counts m → ∃ n, m.limit plan = .ofNat n) :
    Sound (s.attachPlan o name plan) := by
  obtain ⟨hpn, rfl, hpu⟩ := hp
  obtain ⟨U, hU⟩ := Dict.mem_iff.1 ho
  apply h.newPlan hname hpu rfl (s.planOf_attachPlan _ name plan)
    (s.ownPlans_attachPlan _ name plan)
  · intro m hm u
    exact s.weighs_attachPlan _ name plan hm u
  · intro u V hV
    simp only [Store.attachPlan, setPlan, modifyUser, Dict.get?_modify] at hV
    split at hV
    · obtain ⟨V', hV', rfl⟩ := Option.map_eq_some_iff.1 hV
      exact h.named.user u V' hV'
    · exact h.named.user u V hV
  · exact ⟨hpn, hn, (h.named.user _ U hU).2.1⟩
  · exact hlimit

/-- A call that meets the condition takes no plan beyond its limits. -/
theorem Sound.exec {c : Call} (hc : KeepsQuota s c) : Sound (s.exec c) := by
  cases c with
  | addPlan owner name opts =>
    obtain ⟨hn, hng, hog, hug, hlimits⟩ := hc
    change Sound (s.addPlan owner name opts).1
    rcases hr : s.addPlan owner name opts with ⟨s', r⟩
    rcases addPlan_cases hr with ⟨rfl, -⟩ | ⟨hname, -, hadd⟩
    · exact h
    · rcases hadd with ⟨rfl, plan, hplan, rfl⟩ | ⟨o, user, parent, plan, rfl, hu, -, -, hplan, rfl⟩
      · obtain ⟨ho, hus⟩ := Plan.new_ok hplan
        apply h.setNewPlan hname hn
        · exact ⟨(Plan.new_name hplan).1.trans hng, ho.trans hog, by rw [hus, hug]⟩
        · intro m hm
          exact Plan.new_limit hplan hlimits hm
      · obtain ⟨ho, hus⟩ := Plan.new_ok hplan
        rw [(h.named.user o user hu).1] at ho
        apply h.attachPlan hname hn (Dict.mem_of_get? hu)
        · exact ⟨(Plan.new_name hplan).1.trans hng, ho.trans hog, by rw [hus, hug]⟩
        · intro m hm
          exact Plan.new_limit hplan hlimits hm
  | addUser p name opts =>
    obtain ⟨hn, hng, hpg, hsg, hdg⟩ := hc
    change Sound (s.addUser p name opts).1
    rcases hr : s.addUser p name opts with ⟨s', r⟩
    rcases addUser_cases hr with ⟨rfl, -⟩ | ⟨hname, -, parent, hp, hcheck, rfl⟩
    · exact h
    · rw [(h.named.plan p parent hp).1]
      have htotal : s.checkTotal userMeasure parent = .ok none := by
        unfold checkAddUser at hcheck
        split at hcheck
        · cases hcheck
        · split at hcheck
          · cases hcheck
          · exact hcheck
      have hdom : (User.new name p opts).domains = domainsGiven opts := User.extend_domains _ _
      apply h.attachUser hname hp htotal hn
      refine ⟨?_, ?_, ?_, ?_⟩
      · exact (User.extend_name _ _).trans hng
      · exact (User.extend_plan _ _).trans hpg
      · exact (congrArg Dict.keys (User.extend_subPlans _ _)).trans hsg
      · rw [hdom, ← Dict.length_keys, hdg]
        rfl
  | addDomain o name opts =>
    change Sound (s.addDomain o name opts).1
    rcases hr : s.addDomain o name opts with ⟨s', r⟩
    rcases addDomain_cases hr with ⟨rfl, -⟩ | ⟨-, -, user, plan, hu, hp, hcheck, rfl⟩
    · exact h
    · unfold checkAddDomain at hcheck
      split at hcheck
      · cases hcheck
      · exact h.attachDomain hu hp hcheck name _
  | deleteDomain name => exact h.of_shrinks (shrinks_deleteDomain s name)
  | deleteUser name => exact h.of_shrinks (shrinks_deleteUser s name)
  | deletePlan name => exact h.of_shrinks (shrinks_deletePlan s name)
  | suspendPlan name o => exact h.suspendPlan name o
  | unSuspendPlan name o => exact h.unSuspendPlan hc
  | suspendUser name o => exact h.suspendUser name o
  | unSuspendUser name o => exact h.unSuspendUser hc
  | updateUser name data => exact hc.elim
  | updateDomain name data => exact hc.elim
  | updatePlan name data => exact hc.elim

end Steps

/-- The totals of a plan are computed and are not above its limits. -/
def WithinLimits (s : Store) (P : Plan) : Prop :=
  (∃ t, s.totalActiveUsers P = .ok t ∧ (JsVal.ofNat t).le P.maxUserCount) ∧
  (∃ t, s.totalActiveDomains P = .ok t ∧ (JsVal.ofNat t).le P.maxDomainCount)

theorem Sound.withinLimits (h : Sound s) {P : Plan} (hP : s.plans.get? p = some P)
    (ha : P.suspended.truthy = false) : s.WithinLimits P := by
  have hact : s.active p = true := by
    rw [active_of_get? hP, ha]
    rfl
  have hle : ∀ m, Measure.Counts m →
      ∃ t, s.total m s.fuel P = .ok t ∧ (JsVal.ofNat t).le (m.limit P) := by
    intro m hm
    obtain ⟨n, hn, hload⟩ := h.quota m hm p P hP
    refine ⟨s.load m p, h.linked.total_load h.ranked m hP, ?_⟩
    rw [hn, JsVal.ofNat_le]
    exact decide_eq_true (hload hact)
  exact ⟨hle _ .user, hle _ .domain⟩

theorem sound_empty : Sound Store.empty := by
  have hseats : ∀ u p, u ∉ Store.empty.seats p := fun _ _ => List.not_mem_nil
  refine ⟨⟨?_, ?_⟩, ⟨fun _ => 0, ?_⟩, ⟨?_, ?_⟩, ?_⟩
  · intro u p hu
    exact (hseats u p hu).elim
  · intro u p q hu
    exact (hseats u p hu).elim
  · intro p q hq
    exact absurd hq List.not_mem_nil
  · intro p P hP
    cases hP
  · intro u U hU
    cases hU
  · intro m hm p P hP
    cases hP

theorem wholeLimits_unlimitedOpts : WholeLimits unlimitedOpts := by
  intro k hk _
  rcases List.mem_pair.1 hk with rfl | rfl
  · exact ⟨100000, rfl⟩
  · exact ⟨100000, rfl⟩

theorem sound_installed : Sound installed := by
  apply sound_empty.exec (c := .addPlan none unlimitedPlanName unlimitedOpts)
  exact ⟨by decide, rfl, rfl, rfl, wholeLimits_unlimitedOpts⟩

/-- In a run of calls that keep the quotas no plan is ever beyond its limits while it counts. -/
theorem quota_of_reached {s : Store} (h : Reached KeepsQuota s) {P : Plan}
    (hP : s.plans.get? p = some P) (ha : P.suspended.truthy = false) : s.WithinLimits P := by
  have hs : Sound s := h.keeps sound_installed fun _ _ ht hc => ht.exec hc
  exact hs.withinLimits hP ha

/-- Options without any of the fields that the store gives a new record. -/
def PlainOpts (opts : Obj) : Prop :=
  ∀ k ∈ ["name", "owner", "plan", "users", "domains", "subPlans", "suspended"], k ∉ opts

instance (opts : Obj) : Decidable (PlainOpts opts) :=
  inferInstanceAs (Decidable (∀ k ∈ ["name", "owner", "plan", "users", "domains", "subPlans",
    "suspended"], k ∉ opts))

def AddsAndDeletes : Call → Prop
  | .addPlan _ _ opts => PlainOpts opts ∧ WholeLimits opts
  | .addUser _ _ opts => PlainOpts opts
  | .addDomain _ _ opts => PlainOpts opts
  | .deleteDomain _ => True
  | .deleteUser _ => True
  | .deletePlan _ => True
  | _ => False

def Suspends : Call → Prop
  | .suspendPlan _ _ => True
  | .unSuspendPlan _ _ => True
  | .suspendUser _ _ => True
  | .unSuspendUser _ _ => True
  | _ => False

/-- A new plan or user has a name. -/
def NamesNew : Call → Prop
  | .addPlan _ name _ => name ≠ ""
  | .addUser _ name _ => name ≠ ""
  | _ => True

theorem PlainOpts.overlay {opts : Obj} (h : PlainOpts opts) {α : Type} {k : String}
    (f : JsVal → α) (old : α)
    (hk : k ∈ ["name", "owner", "plan", "users", "domains", "subPlans", "suspended"]) :
    JXPanel.overlay opts k f old = old := overlay_absent (h k hk) f old

theorem AddsAndDeletes.keepsQuota {s : Store} {c : Call} (h : AddsAndDeletes c)
    (hn : NamesNew c) : KeepsQuota s c := by
  cases c with
  | addPlan owner name opts =>
    obtain ⟨hp, hw⟩ := h
    refine ⟨hn, hp.overlay _ _ (by simp), hp.overlay _ _ (by simp), ?_, hw⟩
    exact congrArg Dict.keys (hp.overlay (k := "users") _ _ (by simp))
  | addUser p name opts =>
    have hp : PlainOpts opts := h
    refine ⟨hn, hp.overlay _ _ (by simp), hp.overlay _ _ (by simp), ?_, ?_⟩
    · exact congrArg Dict.keys (hp.overlay (k := "subPlans") _ _ (by simp))
    · exact congrArg Dict.keys (hp.overlay (k := "domains") _ _ (by simp))
  | addDomain o name opts => trivial
  | deleteDomain name => trivial
  | deleteUser name => trivial
  | deletePlan name => trivial
  | suspendPlan name o => exact h.elim
  | unSuspendPlan name o => exact h.elim
  | suspendUser name o => exact h.elim
  | unSuspendUser name o => exact h.elim
  | updateUser name data => exact h.elim
  | updateDomain name data => exact h.elim
  | updatePlan name data => exact h.elim

/-- No plan is suspended. -/
def NoneSuspended (s : Store) : Prop :=
  ∀ p P, s.plans.get? p = some P → P.suspended.truthy = false

theorem NoneSuspended.same (h : NoneSuspended s) (hs : SameSuspension s s') :
    NoneSuspended s' := by
  intro p P' hP'
  obtain ⟨P, hP, he⟩ := hs p P' hP'
  rw [he]
  exact h p P hP

theorem NoneSuspended.setPlan (h : NoneSuspended s) {plan : Plan}
    (hp : plan.suspended.truthy = false) : NoneSuspended (s.setPlan name plan) := by
  intro p P hP
  rw [Store.setPlan, Dict.get?_set] at hP
  split at hP
  · cases hP
    exact hp
  · exact h p P hP

theorem NoneSuspended.exec (h : NoneSuspended s) {c : Call}
    (hc : AddsAndDeletes c) : NoneSuspended (s.exec c) := by
  cases c with
  | addPlan owner name opts =>
    change NoneSuspended (s.addPlan owner name opts).1
    rcases hr : s.addPlan owner name opts with ⟨s', r⟩
    have hnew : ∀ o plan, Plan.new name o opts = .ok plan → plan.suspended.truthy = false := by
      intro o plan hplan
      rw [(Plan.new_name hplan).2, hc.1.overlay _ _ (by simp)]
      rfl
    rcases addPlan_cases hr with ⟨rfl, -⟩ | ⟨-, -, hadd⟩
    · exact h
    · rcases hadd with ⟨rfl, plan, hplan, rfl⟩ | ⟨o, user, parent, plan, rfl, -, -, -, hplan, rfl⟩
      · exact h.setPlan (hnew _ _ hplan)
      · exact h.setPlan (hnew _ _ hplan)
  | addUser p name opts =>
    change NoneSuspended (s.addUser p name opts).1
    rcases hr : s.addUser p name opts with ⟨s', r⟩
    rcases addUser_cases hr with ⟨rfl, -⟩ | ⟨-, -, parent, hp, -, rfl⟩
    · exact h
    · intro q Q hQ
      rw [get?_plans_attachUser name _ hp] at hQ
      split at hQ
      · cases hQ
        exact h p parent hp
      · exact h q Q hQ
  | addDomain o name opts =>
    change NoneSuspended (s.addDomain o name opts).1
    rcases hr : s.addDomain o name opts with ⟨s', r⟩
    rcases addDomain_cases hr with ⟨rfl, -⟩ | ⟨-, -, user, plan, -, -, -, rfl⟩
    · exact h
    · exact h
  | deleteDomain name => exact h.same (shrinks_deleteDomain s name).same
  | deleteUser name => exact h.same (shrinks_deleteUser s name).same
  | deletePlan name => exact h.same (shrinks_deletePlan s name).same
  | suspendPlan name o => exact hc.elim
  | unSuspendPlan name o => exact hc.elim
  | suspendUser name o => exact hc.elim
  | unSuspendUser name o => exact hc.elim
  | updateUser name data => exact hc.elim
  | updateDomain name data => exact hc.elim
  | updatePlan name data => exact hc.elim

/-- However plans, users and domains with names are added and deleted, no plan at any level is
charged more than it allows. -/
theorem quota_of_adds_and_deletes {s : Store}
    (h : Reached (fun _ c => AddsAndDeletes c ∧ NamesNew c) s) {P : Plan}
    (hP : s.plans.get? p = some P) : s.WithinLimits P := by
  have hinit : NoneSuspended installed := by
    have hempty : NoneSuspended Store.empty := by
      intro p P hP
      cases hP
    apply hempty.exec (c := .addPlan none unlimitedPlanName unlimitedOpts)
    exact ⟨by decide, wholeLimits_unlimitedOpts⟩
  have hs : Sound s ∧ NoneSuspended s := by
    apply h.keeps ⟨sound_installed, hinit⟩
    intro t c ht hc
    exact ⟨ht.1.exec (hc.1.keepsQuota hc.2), ht.2.exec hc.1⟩
  exact hs.1.withinLimits hP (hs.2 p P hP)

theorem wholeLimits_planOpts (u d : Nat) : WholeLimits (planOpts u d) := by
  intro k hk _
  rcases List.mem_pair.1 hk with rfl | rfl
  · exact ⟨u, rfl⟩
  · exact ⟨d, rfl⟩

theorem plainOpts_planOpts (u d : Int) : PlainOpts (planOpts u d) := by
  have hkeys : (planOpts u d).keys =
      ["maxDomainCount", "maxUserCount", "canCreatePlan", "canCreateUser", "planMaximums"] := rfl
  have hnone : ∀ k ∈ ["name", "owner", "plan", "users", "domains", "subPlans", "suspended"],
      k ∉ ["maxDomainCount", "maxUserCount", "canCreatePlan", "canCreateUser", "planMaximums"] := by
    decide
  intro k hk hm
  rw [← Dict.mem_keys, hkeys] at hm
  exact hnone k hk hm

theorem plainOpts_empty : PlainOpts .empty := fun _ _ => Dict.not_mem_empty _

theorem quota_of_adds_and_deletes_sample :
    ∃ P, (installed.run sampleCalls).plans.get? "gold" = some P ∧
      (installed.run sampleCalls).WithinLimits P := by
  have hreached : Reached (fun _ c => AddsAndDeletes c ∧ NamesNew c) (installed.run sampleCalls) :=
    Runs.Reached.start.run ⟨⟨plainOpts_empty, (by decide : (_ : String) ≠ _)⟩,
      ⟨⟨plainOpts_planOpts 5 5, wholeLimits_planOpts 5 5⟩, (by decide : (_ : String) ≠ _)⟩,
      ⟨plainOpts_empty, (by decide : (_ : String) ≠ _)⟩, ⟨plainOpts_empty, trivial⟩, trivial⟩
  obtain ⟨P, hP⟩ := Dict.mem_iff.1 (show "gold" ∈ (installed.run sampleCalls).plans by decide)
  exact ⟨P, hP, quota_of_adds_and_deletes hreached hP⟩

/-- A plan of a user without a name: the loop of the checks stops there. -/
def unnamedCalls : List Call :=
  [.addUser unlimitedPlanName "ann" .empty, .addPlan (some "ann") "gold" (planOpts 2 2),
    .addUser "gold" "" .empty, .addPlan (some "") "silver" (planOpts 2 2),
    .addUser "silver" "bob" .empty, .addPlan (some "bob") "bronze" (planOpts 2 2),
    .addUser "bronze" "carl" .empty]

/-- Gold allows two users and is charged for three. -/
theorem unnamed_owner_beyond_quota : ¬ ∀ s, Reached (fun _ c => AddsAndDeletes c) s →
    ∀ p P, s.plans.get? p = some P → s.WithinLimits P := by
  intro h
  have hplan : ∀ c ∈ [planOpts 2 2], PlainOpts c ∧ WholeLimits c := by
    intro c hc
    rw [List.mem_singleton.1 hc]
    exact ⟨plainOpts_planOpts 2 2, wholeLimits_planOpts 2 2⟩
  have hreached : Reached (fun _ c => AddsAndDeletes c) (installed.run unnamedCalls) :=
    Runs.Reached.start.run ⟨plainOpts_empty, hplan _ (by simp), plainOpts_empty, hplan _ (by simp),
      plainOpts_empty, hplan _ (by simp), plainOpts_empty, trivial⟩
  obtain ⟨P, hP⟩ := Dict.mem_iff.1 (show "gold" ∈ (installed.run unnamedCalls).plans by decide)
  obtain ⟨⟨t, ht, hle⟩, -⟩ := h _ hreached "gold" P hP
  have hcount := eq_of_map (f := fun P => (totalActiveUsers (installed.run unnamedCalls) P,
    P.maxUserCount)) (b := (.ok 3, .num (.int 2))) (by rfl) hP
  obtain ⟨htotal, hmax⟩ := Prod.mk.inj hcount
  rw [htotal] at ht
  cases ht
  rw [hmax] at hle
  exact absurd hle (by decide)

/-- A plan that is suspended and unsuspended. -/
def resumedCalls : List Call := sampleCalls ++ [.suspendPlan "gold" "space", .unSuspendPlan "gold" none]

/-- Without the users of gold there is room for them in every plan. -/
theorem fits_gold : (installed.run (sampleCalls ++ [.suspendPlan "gold" "space"])).Fits "gold" := by
  generalize hs : installed.run (sampleCalls ++ [.suspendPlan "gold" "space"]) = s
  have hgold : ∀ m, Measure.Counts m → (s.plans.get? "gold").map
      (fun P => (s.total m s.fuel P, (JsVal.ofNat 1).le (m.limit P))) = some (.ok 1, true) := by
    intro m hm
    subst hs
    cases hm with
    | user => rfl
    | domain => rfl
  have habove : ∀ m, Measure.Counts m → (s.plans.entries.all fun e =>
      (s.total m s.fuel e.2).toOption.all fun ta => (JsVal.ofNat (ta + 1)).le (m.limit e.2)) = true := by
    intro m hm
    subst hs
    cases hm with
    | user => rfl
    | domain => rfl
  intro m hm P t hP ht
  have hcount := eq_of_map (hgold m hm) hP
  obtain ⟨htotal, hle⟩ := Prod.mk.inj hcount
  cases Except.ok.inj (ht.symm.trans htotal)
  refine ⟨hle, fun a A ta hA _ _ hta => ?_⟩
  have hone := List.all_eq_true.1 (habove m hm) (a, A) (Dict.get?_eq_some.1 hA)
  dsimp only at hone
  rw [hta] at hone
  exact hone

theorem quota_of_reached_sample :
    ∃ P, (installed.run resumedCalls).plans.get? "gold" = some P ∧ P.suspended.truthy = false ∧
      (installed.run resumedCalls).WithinLimits P := by
  have hreached : Reached KeepsQuota (installed.run resumedCalls) :=
    Runs.Reached.start.run ⟨⟨by decide, rfl, rfl, rfl, rfl⟩,
      ⟨by decide, rfl, rfl, rfl, wholeLimits_planOpts 5 5⟩, ⟨by decide, rfl, rfl, rfl, rfl⟩,
      trivial, trivial, fun _ => fits_gold, trivial⟩
  obtain ⟨P, hP⟩ := Dict.mem_iff.1 (show "gold" ∈ (installed.run resumedCalls).plans by decide)
  have ha : P.suspended.truthy = false := eq_of_map (f := fun P => P.suspended.truthy) (by rfl) hP
  exact ⟨P, hP, ha, quota_of_reached hreached hP ha⟩

/-- A plan below gold is suspended, its place in gold is filled and it is unsuspended again. -/
def refilledCalls : List Call :=
  [.addUser unlimitedPlanName "ann" .empty, .addPlan (some "ann") "gold" (planOpts 2 2),
    .addUser "gold" "bob" .empty, .addPlan (some "bob") "silver" (planOpts 2 2),
    .addUser "silver" "carl" .empty, .suspendPlan "silver" "space", .addUser "gold" "dave" .empty,
    .unSuspendPlan "silver" none]

/-- Gold allows two users and is charged for three. -/
theorem unsuspended_beyond_quota :
    ¬ ∀ s, Reached (fun _ c => AddsAndDeletes c ∨ Suspends c) s →
      ∀ p P, s.plans.get? p = some P → P.suspended.truthy = false → s.WithinLimits P := by
  intro h
  have hplan : PlainOpts (planOpts 2 2) ∧ WholeLimits (planOpts 2 2) :=
    ⟨plainOpts_planOpts 2 2, wholeLimits_planOpts 2 2⟩
  have hreached : Reached (fun _ c => AddsAndDeletes c ∨ Suspends c)
      (installed.run refilledCalls) :=
    Runs.Reached.start.run ⟨.inl plainOpts_empty, .inl hplan, .inl plainOpts_empty, .inl hplan,
      .inl plainOpts_empty, .inr trivial, .inl plainOpts_empty, .inr trivial, trivial⟩
  obtain ⟨P, hP⟩ := Dict.mem_iff.1 (show "gold" ∈ (installed.run refilledCalls).plans by decide)
  have hcount := eq_of_map (f := fun P => (totalActiveUsers (installed.run refilledCalls) P,
    P.maxUserCount, P.suspended.truthy)) (b := (.ok 3, .num (.int 2), false)) (by rfl) hP
  obtain ⟨htotal, hrest⟩ := Prod.mk.inj hcount
  obtain ⟨hmax, hact⟩ := Prod.mk.inj hrest
  obtain ⟨⟨t, ht, hle⟩, -⟩ := h _ hreached "gold" P hP hact
  rw [htotal] at ht
  cases ht
  rw [hmax] at hle
  exact absurd hle (by decide)

end Store
end JXPanel

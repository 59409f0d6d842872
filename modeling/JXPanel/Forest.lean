import JXPanel.Halting
import JXPanel.Shrinking
import JXPanel.Consistency
import JXPanel.Quota

namespace JXPanel
set_option autoImplicit true

open Hierarchy

/-- The calls of the store and the edit of a user that the session of another one applies. -/
inductive PanelStep
  | call (c : Call)
  | editUser (session name : String) (json : Obj)

def Store.panelStep (s : Store) : PanelStep → Store
  | .call c => s.exec c
  | .editUser _ name json => (s.editUser name json).1

namespace Store
variable {s s' : Store}

theorem Climbs.of_sub (h : Climbs s)
    (hup : ∀ p q, s'.parentUp p = some q → s.parentUp p = some q) : Climbs s' := by
  intro p
  obtain ⟨n, hn⟩ := h p
  have hstep : ∀ x z, s'.parentUp x = some z → s.parentUp x = some z ∨ (z = p ∧ False) :=
    fun x z hz => .inl (hup x z hz)
  exact ⟨n, hn.avoids hstep fun _ _ _ hm => hm⟩

/-- Plans may be put below a plan that none of them is above. -/
theorem Climbs.redirect (h : Climbs s) (y : String) (moved : String → Prop)
    (hup : ∀ p q, s'.parentUp p = some q → s.parentUp p = some q ∨ (q = y ∧ moved p))
    (hy : ∀ q ∈ climb s.parentUp s.fuel y, ¬ moved q) : Climbs s' := by
  apply ends_redirect h hup
  intro m q hq
  apply hy q
  rcases Nat.le_total m s.fuel with hm | hm
  · exact climb_subset hm y hq
  · rwa [(h.ends y).climb_eq hm] at hq

theorem Ranked.of_sub (hr : s.Ranked) (hsub : ∀ p, s'.subs p ⊆ s.subs p) : s'.Ranked := by
  obtain ⟨rank, hrank⟩ := hr
  exact ⟨rank, fun p q hq => hrank p q (hsub p hq)⟩

/-- A new plan that has no plans below it may be listed anywhere. -/
theorem Ranked.of_new (hr : s.Ranked) (hnone : s'.subs name = [])
    (hsub : ∀ p q, q ∈ s'.subs p → q ∈ s.subs p ∨ q = name) : s'.Ranked := by
  obtain ⟨rank, hrank⟩ := hr
  refine ⟨fun p => if p = name then (s'.plans.keys.map rank).sum + 1 else rank p,
    fun p q hq => ?_⟩
  have hp : p ≠ name := by
    intro he
    rw [he, hnone] at hq
    exact absurd hq List.not_mem_nil
  simp only [if_neg hp]
  split
  · obtain ⟨u, hu, -⟩ := mem_subs.1 hq
    have hmem := List.mem_map_of_mem (f := rank) (Dict.mem_keys.2 (mem_plans_of_seat hu))
    exact Nat.lt_succ_of_le (List.single_le_sum (fun _ _ => Nat.zero_le _) _ hmem)
  · rename_i hqn
    exact hrank p q ((hsub p q hq).resolve_right hqn)

/-- What the walks rest on: plans are kept under their names, nothing is above itself, and the
climb from every plan to the top ends. -/
structure Forest (s : Store) : Prop where
  named : ∀ p P, s.plans.get? p = some P → P.name = p
  ranked : s.Ranked
  climbs : s.Climbs

theorem Forest.of_lighter (h : Forest s) (hw : Lighter s s') : Forest s' := by
  refine ⟨?_, hw.ranked h.ranked, ?_⟩
  · intro p P' hP'
    obtain ⟨P, hP, hwithin, -⟩ := hw.plan p P' hP'
    rw [hwithin.name]
    exact h.named p P hP
  · apply h.climbs.of_sub
    intro p q hq
    obtain ⟨o, ho, hq⟩ := Option.bind_eq_some_iff.1 hq
    obtain ⟨P', hP', rfl⟩ := ownerOf_eq.1 ho
    obtain ⟨U', hU', rfl⟩ := planOf_eq.1 hq
    obtain ⟨P, hP, hwithin, -⟩ := hw.plan p P' hP'
    obtain ⟨U, hU, hwithin'⟩ := hw.user P'.owner U' hU'
    rw [hwithin.owner] at hU
    rw [parentUp, ownerOf_of_get? hP, hwithin'.plan]
    exact planOf_of_get? hU

theorem Forest.of_resuspended (h : Forest s) (hs : Resuspended s s') : Forest s' := by
  refine ⟨?_, ?_, ?_⟩
  · intro p P' hP'
    have hname := hs.plan_map (f := Plan.name) (fun _ => rfl) p
    rw [hP'] at hname
    obtain ⟨P, hP, he⟩ := Option.map_eq_some_iff.1 hname.symm
    rw [← he]
    exact h.named p P hP
  · apply h.ranked.of_sub
    intro p q hq
    obtain ⟨u, hu, hqu⟩ := mem_subs.1 hq
    rw [hs.seats] at hu
    rw [hs.ownPlans] at hqu
    exact mem_subs.2 ⟨u, hu, hqu⟩
  · apply h.climbs.of_sub
    intro p q hq
    rw [parentUp, hs.ownerOf] at hq
    obtain ⟨o, ho, hq⟩ := Option.bind_eq_some_iff.1 hq
    rw [hs.planOf] at hq
    exact Option.bind_eq_some_iff.2 ⟨o, ho, hq⟩

/-- A new plan, listed by its owner or not. -/
theorem Forest.newPlan (h : Forest s) {plan : Plan} (hname : name ∉ s.plans)
    (hp : plan.name = name ∧ plan.users.keys = [])
    (hplans : s'.plans = s.plans.set name plan) (hplan : ∀ u, s'.planOf u = s.planOf u)
    (hown : ∀ u q, q ∈ s'.ownPlans u → q ∈ s.ownPlans u ∨ q = name)
    (hup : ∀ q, s.planOf plan.owner = some q → name ∉ climb s.parentUp s.fuel q) :
    Forest s' := by
  have hseats := seats_newPlan hname hp.2 hplans
  refine ⟨?_, ?_, ?_⟩
  · intro p P hP
    rw [hplans, Dict.get?_set] at hP
    split at hP
    · rename_i he
      cases hP
      exact hp.1.trans he.symm
    · exact h.named p P hP
  · apply h.ranked.of_new
    · rw [subs, hseats, seats, Dict.get?_eq_none.2 hname]
      rfl
    · intro p q hq
      obtain ⟨u, hu, hqu⟩ := mem_subs.1 hq
      rw [hseats] at hu
      exact (hown u q hqu).imp_left fun hqu => mem_subs.2 ⟨u, hu, hqu⟩
  · have howner : ∀ p, p ≠ name → s'.ownerOf p = s.ownerOf p := by
      intro p hne
      rw [ownerOf, hplans, Dict.get?_set_ne _ _ hne]
      rfl
    have hself : s'.parentUp name = s.planOf plan.owner := by
      rw [parentUp, ownerOf, hplans, Dict.get?_set_self]
      exact hplan plan.owner
    have hrest : ∀ p, p ≠ name → s'.parentUp p = s.parentUp p := by
      intro p hne
      rw [parentUp, howner p hne, parentUp]
      cases s.ownerOf p with
      | none => rfl
      | some o => exact hplan o
    cases hq : s.planOf plan.owner with
    | none =>
      apply h.climbs.of_sub
      intro p z hz
      by_cases he : p = name
      · rw [he, hself, hq] at hz
        cases hz
      · rwa [hrest p he] at hz
    | some y =>
      apply h.climbs.redirect y fun p => p = name
      · intro p z hz
        by_cases he : p = name
        · rw [he, hself, hq] at hz
          exact .inr ⟨(Option.some.inj hz).symm, he⟩
        · rw [hrest p he] at hz
          exact .inl hz
      · intro z hz he
        exact hup y hq (he ▸ hz)

/-- A user who gets another plan takes the plans he owns along. -/
theorem Forest.movePlans (h : Forest s) (hnamed : ∀ p P, s'.plans.get? p = some P → P.name = p)
    (howner : ∀ p, s'.ownerOf p = s.ownerOf p)
    (hplan : ∀ u, s'.planOf u = if u = name then some y else s.planOf u)
    (hsub : ∀ p, s'.subs p ⊆ s.subs p)
    (hup : ∀ q ∈ climb s.parentUp s.fuel y, s.ownerOf q ≠ some name) : Forest s' := by
  refine ⟨hnamed, h.ranked.of_sub hsub, ?_⟩
  apply h.climbs.redirect y fun p => s.ownerOf p = some name
  · intro p z hz
    obtain ⟨o, ho, hz⟩ := Option.bind_eq_some_iff.1 hz
    rw [howner] at ho
    rw [hplan] at hz
    split at hz
    · rename_i he
      exact .inr ⟨(Option.some.inj hz).symm, he ▸ ho⟩
    · exact .inl (Option.bind_eq_some_iff.2 ⟨o, ho, hz⟩)
  · exact hup

/-- The name of the user that a new plan is added for. -/
def givenOwner (s : Store) : Option String → Option String
  | none => some superUser
  | some o => (s.users.get? o).map User.name

/-- When a step keeps the plans a forest: a new plan is kept under its own name and that name is
not met on the climb from its owner's plan, and no plan that a new or an edited user owns is met
on the climb from the plan he gets. -/
def KeepsForest (s : Store) : PanelStep → Prop
  | .call (.addPlan owner name opts) => nameGiven opts name = name ∧ (usersGiven opts).keys = [] ∧
      ∀ o q, s.givenOwner owner = some o → s.planOf (ownerGiven opts o) = some q →
        name ∉ climb s.parentUp s.fuel q
  | .call (.addUser p name opts) => (subPlansGiven opts).keys = [] ∧
      ∀ parent, s.plans.get? p = some parent →
        ∀ q ∈ climb s.parentUp s.fuel (planGiven opts parent.name), s.ownerOf q ≠ some name
  | .editUser _ name json => "subPlans" ∉ json ∧ ∀ user, s.users.get? name = some user →
      ∀ q ∈ climb s.parentUp s.fuel (planGiven json user.plan), s.ownerOf q ≠ some name
  | .call (.updateUser _ _) => False
  | .call (.updateDomain _ _) => False
  | .call (.updatePlan _ _) => False
  | .call _ => True

theorem Forest.attachUser (h : Forest s) {U : User} (hP : s.plans.get? p = some P)
    (hname : name ∉ s.users) (hU : U.subPlans.keys = [])
    (hup : ∀ q ∈ climb s.parentUp s.fuel U.plan, s.ownerOf q ≠ some name) :
    Forest (s.attachUser p name U) := by
  apply h.movePlans _ (s.ownerOf_attachUser p name U) (s.planOf_attachUser p name U) _ hup
  · intro q Q hQ
    rw [get?_plans_attachUser name U hP] at hQ
    split at hQ
    · rename_i hq
      cases hQ
      exact hq ▸ h.named p P hP
    · exact h.named q Q hQ
  · intro q r hr
    obtain ⟨u, hu, hru⟩ := mem_subs.1 hr
    rw [ownPlans_attachUser] at hru
    split at hru
    · rw [hU] at hru
      exact absurd hru List.not_mem_nil
    · rename_i hne
      rcases (mem_seats_attachUser s).1 hu with hu | ⟨-, -, rfl⟩
      · exact mem_subs.2 ⟨u, hu, hru⟩
      · exact (hne rfl).elim

theorem Forest.setUser (h : Forest s) {U : User} (hU : U.subPlans.keys = s.ownPlans name)
    (hup : ∀ q ∈ climb s.parentUp s.fuel U.plan, s.ownerOf q ≠ some name) :
    Forest (s.setUser name U) := by
  have hnamed : ∀ p P, (s.setUser name U).plans.get? p = some P → P.name = p := h.named
  apply h.movePlans hnamed (fun _ => rfl) (s.planOf_setUser name U) _ hup
  intro p q hq
  obtain ⟨u, hu, hqu⟩ := mem_subs.1 hq
  rw [ownPlans_setUser] at hqu
  split at hqu
  · rename_i he
    rw [hU, ← he] at hqu
    exact mem_subs.2 ⟨u, hu, hqu⟩
  · exact mem_subs.2 ⟨u, hu, hqu⟩

theorem Forest.attachDomain (h : Forest s) (o name : String) (D : Domain) :
    Forest (s.attachDomain o name D) := by
  refine ⟨h.named, ?_, ?_⟩
  · apply h.ranked.of_sub
    intro p q hq
    obtain ⟨u, hu, hqu⟩ := mem_subs.1 hq
    rw [ownPlans_attachDomain] at hqu
    exact mem_subs.2 ⟨u, hu, hqu⟩
  · apply h.climbs.of_sub
    intro p q hq
    obtain ⟨u, hu, hq⟩ := Option.bind_eq_some_iff.1 hq
    rw [planOf_attachDomain] at hq
    exact Option.bind_eq_some_iff.2 ⟨u, hu, hq⟩

theorem Forest.addPlan (h : Forest s) {owner : Option String} {opts : Obj}
    (hc : KeepsForest s (.call (.addPlan owner name opts))) :
    Forest (s.addPlan owner name opts).1 := by
  obtain ⟨hng, hug, hup⟩ := hc
  rcases hr : s.addPlan owner name opts with ⟨s', r⟩
  rcases addPlan_cases hr with ⟨rfl, -⟩ | ⟨hname, -, hadd⟩
  · exact h
  · rcases hadd with ⟨rfl, plan, hplan, rfl⟩ | ⟨o, user, parent, plan, rfl, hu, -, -, hplan, rfl⟩
    · obtain ⟨ho, hus⟩ := Plan.new_ok hplan
      have hplans : (s.setPlan name plan).plans = s.plans.set name plan := rfl
      apply h.newPlan hname ⟨(Plan.new_name hplan).1.trans hng, by rw [hus, hug]⟩ hplans
        (fun _ => rfl) (fun _ _ => .inl)
      intro q hq
      exact hup superUser q rfl (ho ▸ hq)
    · obtain ⟨ho, hus⟩ := Plan.new_ok hplan
      have hplans : (s.attachPlan o name plan).plans = s.plans.set name plan := rfl
      apply h.newPlan hname ⟨(Plan.new_name hplan).1.trans hng, by rw [hus, hug]⟩ hplans
        (s.planOf_attachPlan o name plan)
      · intro u q hq
        exact ((mem_ownPlans_attachPlan s).1 hq).imp_right fun hn => hn.2.2
      · intro q hq
        apply hup user.name q _ (ho ▸ hq)
        rw [givenOwner, hu]
        rfl

theorem Forest.addUser (h : Forest s) {opts : Obj}
    (hc : KeepsForest s (.call (.addUser p name opts))) : Forest (s.addUser p name opts).1 := by
  obtain ⟨hsub, hup⟩ := hc
  rcases hr : s.addUser p name opts with ⟨s', r⟩
  rcases addUser_cases hr with ⟨rfl, -⟩ | ⟨hname, -, parent, hp, -, rfl⟩
  · exact h
  · have hplan : (User.new name parent.name opts).plan = planGiven opts parent.name :=
      User.extend_plan _ _
    have hsubs : (User.new name parent.name opts).subPlans = subPlansGiven opts :=
      User.extend_subPlans _ _
    apply h.attachUser hp hname
    · rw [hsubs, hsub]
    · rw [hplan]
      exact hup parent hp

theorem Forest.editUser (h : Forest s) {json : Obj} {session : String}
    (hc : KeepsForest s (.editUser session name json)) : Forest (s.editUser name json).1 := by
  obtain ⟨hsub, hup⟩ := hc
  cases hU : s.users.get? name with
  | none =>
    rw [Store.editUser, hU]
    exact h
  | some user =>
    rw [editUser_eq hU]
    have hplan : (user.extend json).plan = planGiven json user.plan := User.extend_plan _ _
    apply h.setUser
    · rw [User.extend_subPlans, overlay_absent hsub, ownPlans_of_get? hU]
    · rw [hplan]
      exact hup user hU

theorem Forest.panelStep (h : Forest s) {c : PanelStep} (hc : KeepsForest s c) :
    Forest (s.panelStep c) := by
  cases c with
  | editUser session name json => exact h.editUser hc
  | call c =>
    cases c with
    | addPlan owner name opts => exact h.addPlan hc
    | addUser p name opts => exact h.addUser hc
    | addDomain o name opts =>
      change Forest (s.addDomain o name opts).1
      rcases hr : s.addDomain o name opts with ⟨s', r⟩
      rcases addDomain_cases hr with ⟨rfl, -⟩ | ⟨-, -, user, plan, -, -, -, rfl⟩
      · exact h
      · exact h.attachDomain o name _
    | deleteDomain name => exact h.of_lighter (shrinks_deleteDomain s name).lighter
    | deleteUser name => exact h.of_lighter (shrinks_deleteUser s name).lighter
    | deletePlan name => exact h.of_lighter (shrinks_deletePlan s name).lighter
    | suspendPlan name o => exact h.of_resuspended (suspendPlan_resuspended s name o)
    | unSuspendPlan name o => exact h.of_resuspended (unSuspendPlan_resuspended s name o)
    | suspendUser name o => exact h.of_resuspended (suspendUser_resuspended s name o)
    | unSuspendUser name o => exact h.of_resuspended (unSuspendUser_resuspended s name o)
    | updateUser name data => exact hc.elim
    | updateDomain name data => exact hc.elim
    | updatePlan name data => exact hc.elim

theorem forest_installed : Forest installed := by
  refine ⟨?_, sound_installed.ranked, ?_⟩
  · intro p P hP
    exact (sound_installed.named.plan p P hP).1
  · intro p
    refine ⟨1, fun q hq => ?_⟩
    obtain ⟨o, -, hq⟩ := Option.bind_eq_some_iff.1 hq
    cases hq

/-- In a run whose steps all keep the plans a forest the way from each plan to the plan of its
owner is well-founded and every walk over the plans ends. -/
theorem forest_of_reached {s : Store} (h : Runs.Reached panelStep installed KeepsForest s) :
    (WellFounded fun q p => s.parentUp p = some q) ∧ WalksEnd s := by
  have hf : Forest s := h.keeps forest_installed fun _ _ ht hc => ht.panelStep hc
  exact ⟨hf.climbs.wellFounded, hf.climbs.walksEnd hf.ranked hf.named⟩

/-- The fields that the controls of the user form are stored under. -/
def userFormFields : List String :=
  ["person_name", "suspended", "person_email", "person_lang", "name", "plan", "ftp_access",
    "panel_access"]

/-- The plan validator of the user form. -/
def planAccepted (s : Store) (session : String) (val : JsVal) : Bool :=
  match s.users.get? session with
  | none => false
  | some me => (me.subPlans.keys ++ [me.plan]).any fun p => JsVal.strictEq (.str p) val

/-- The steps of the panel: adds and deletes of records with names, and edits of a user, made by
himself or by one who owns him, with a plan that the form accepts. -/
def FormStep (s : Store) : PanelStep → Prop
  | .call c => AddsAndDeletes c ∧ NamesNew c
  | .editUser session name json => (name = session ∨ s.isOwnerOfUser session name = .ok true) ∧
      (∀ k ∈ json, k ∈ userFormFields) ∧ ∀ v, json.get? "plan" = some v → s.planAccepted session v

/-- A user of the root plan with a plan of his own changes his language. -/
def languageSteps : List PanelStep :=
  [.call (.addUser unlimitedPlanName "ann" .empty),
    .call (.addPlan (some "ann") "gold" (planOpts 5 5)),
    .editUser "ann" "ann" (Dict.ofList [("person_lang", .str "PL")])]

theorem keepsForest_languageSteps :
    Runs.AllOk panelStep KeepsForest installed languageSteps := by
  refine ⟨⟨rfl, ?_⟩, ⟨rfl, rfl, ?_⟩, ⟨by decide, ?_⟩, trivial⟩
  · intro parent hp
    have hname := eq_of_map (f := Plan.name) (b := unlimitedPlanName) (by decide) hp
    change ∀ q ∈ climb installed.parentUp installed.fuel parent.name, _
    rw [hname]
    decide
  · intro o q ho hq
    cases ho
    obtain rfl : unlimitedPlanName = q := Option.some.inj hq
    decide
  · intro user hu
    have hplan := eq_of_map (f := User.plan) (b := unlimitedPlanName) (by decide) hu
    change ∀ q ∈ climb _ _ user.plan, _
    rw [hplan]
    decide

theorem forest_of_reached_sample : WalksEnd (languageSteps.foldl panelStep installed) :=
  (forest_of_reached (Runs.Reached.start.run keepsForest_languageSteps)).2

/-- A user who owns a plan puts himself into it. -/
def ownPlanSteps : List PanelStep :=
  sampleCalls.map PanelStep.call ++ [.editUser "ann" "ann" (Dict.ofList [("plan", .str "gold")])]

/-- The plan is its own parent then, and the loop of the checks never ends. -/
theorem own_plan_never_ends : ¬ ∀ s, Runs.Reached panelStep installed FormStep s →
    (WellFounded fun q p => p ≠ unlimitedPlanName ∧ s.parentUp p = some q) ∧ WalksEnd s := by
  intro h
  have hreached : Runs.Reached panelStep installed FormStep
      (ownPlanSteps.foldl panelStep installed) := by
    apply Runs.Reached.start.run
    refine ⟨⟨plainOpts_empty, (by decide : (_ : String) ≠ _)⟩,
      ⟨⟨plainOpts_planOpts 5 5, wholeLimits_planOpts 5 5⟩, (by decide : (_ : String) ≠ _)⟩,
      ⟨plainOpts_empty, (by decide : (_ : String) ≠ _)⟩, ⟨plainOpts_empty, trivial⟩,
      ⟨.inl rfl, by decide, ?_⟩, trivial⟩
    intro v hv
    obtain rfl : JsVal.str "gold" = v := Option.some.inj hv
    decide
  have hloop : (ownPlanSteps.foldl panelStep installed).parentUp "gold" = some "gold" := by decide
  have hwf := (h _ hreached).1
  exact hwf.irrefl.irrefl "gold" ⟨by decide, hloop⟩

end Store
end JXPanel

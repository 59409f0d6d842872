import JXPanel.AllowList
import JXPanel.PlanUpdates

namespace JXPanel
set_option autoImplicit true

namespace Store
variable {s s' : Store} {name : String}

theorem setUser_eq_self {U V : User} (hU : s.users.get? name = some U) : s.setUser name V = s ↔ V = U := by
  constructor
  · intro h
    have hV : (s.setUser name V).users.get? name = some V := Dict.get?_set_self _ _ _
    rw [h, hU] at hV
    exact (Option.some.inj hV).symm
  · rintro rfl
    rw [setUser, Dict.set_get? hU]

theorem setPlan_eq_self {P Q : Plan} (hP : s.plans.get? name = some P) : s.setPlan name Q = s ↔ Q = P := by
  constructor
  · intro h
    have hQ : (s.setPlan name Q).plans.get? name = some Q := Dict.get?_set_self _ _ _
    rw [h, hP] at hQ
    exact (Option.some.inj hQ).symm
  · rintro rfl
    rw [setPlan, Dict.set_get? hP]

theorem setDomain_eq_self {o o' : Option Domain} (ho : s.domains.get? name = some o) :
    s.setDomain name o' = s ↔ o' = o := by
  constructor
  · intro h
    have ho' : (s.setDomain name o').domains.get? name = some o' := Dict.get?_set_self _ _ _
    rw [h, ho] at ho'
    exact (Option.some.inj ho').symm
  · rintro rfl
    rw [setDomain, Dict.set_get? ho]

theorem setDomain_setDomain (o o' : Option Domain) : (s.setDomain name o).setDomain name o' = s.setDomain name o' := by
  simp only [setDomain, Dict.set_set]

/-- What `updatePlan` looks at before it suspends anything, given the stored record itself. -/
def updatePlanCheck (s : Store) (name : String) : Js (Option String) :=
  match s.plans.get? name with
  | none => .error (.thrown (name ++ " plan doesn't exist"))
  | some plan =>
    match s.users.get? plan.owner with
    | none => .error .typeError
    | some user =>
      match s.plans.get? user.plan with
      | none => .error .typeError
      | some parent =>
        match parent.checkAddPlan plan.limits with
        | .error f => .error f
        | .ok (some res) => .ok (some res)
        | .ok none => (s.getPlansByPlanName name deepest).map fun _ => none

theorem updatePlan_refused (h : s.updatePlanCheck name ≠ .ok none) :
    s.updatePlan name .live = (s, s.updatePlanCheck name) := by
  unfold updatePlan updatePlanCheck at *
  cases hplan : s.plans.get? name with
  | none => rfl
  | some plan =>
    rw [hplan] at h
    have hread : s.readData name plan .live = plan := by
      rw [readData, hplan]
      rfl
    dsimp only at h ⊢
    rw [hread, if_neg fun hne => hne rfl]
    cases huser : s.users.get? plan.owner with
    | none => rfl
    | some user =>
      rw [huser] at h
      dsimp only at h ⊢
      cases hparent : s.plans.get? user.plan with
      | none => rfl
      | some parent =>
        rw [hparent] at h
        dsimp only at h ⊢
        rcases hcheck : parent.checkAddPlan plan.limits with f | (_ | res)
        · rfl
        · rw [hcheck] at h
          dsimp only [guarded] at h ⊢
          cases hsub : s.getPlansByPlanName name deepest with
          | error f => rfl
          | ok sub_plans =>
            rw [hsub] at h
            exact absurd rfl h
        · rfl

structure SameReasons (s s' : Store) : Prop where
  plans : ∀ p, (s'.plans.get? p).map Plan.suspended = (s.plans.get? p).map Plan.suspended
  users : ∀ u, (s'.users.get? u).map User.suspended = (s.users.get? u).map User.suspended

theorem SameReasons.eq (hr : SameReasons s s') (h : Resuspended s s') : s' = s := by
  have hplans : s'.plans = s.plans := by
    apply Dict.eq_of_mapVals h.plans
    intro p P' P hP' hP hcore
    have hsus := hr.plans p
    rw [hP', hP] at hsus
    have heq := congrArg (fun Q : Plan => { Q with suspended := P.suspended }) hcore
    change { P' with suspended := P.suspended } = P at heq
    rw [← Option.some.inj hsus] at heq
    exact heq
  have husers : s'.users = s.users := by
    apply Dict.eq_of_mapVals h.users
    intro u U' U hU' hU hcore
    have hsus := hr.users u
    rw [hU', hU] at hsus
    have heq := congrArg (fun V : User => { V with suspended := U.suspended }) hcore
    change { U' with suspended := U.suspended } = U at heq
    rw [← Option.some.inj hsus] at heq
    exact heq
  cases s
  cases s'
  cases hplans
  cases husers
  cases h.domains
  cases h.config
  rfl

/-- The exits of an edited domain, whose owner the form does not name. -/
theorem editDomain_kept_iff {D : Domain} {json : Obj} (hD : s.getDomain? name = some D) (hform : "owner" ∉ json) :
    ((s.editDomain name json).2 ≠ .ok none → (s.editDomain name json).1 = s) ↔
      match s.users.get? D.owner with
      | none => D.extend json = D
      | some owner => owner.name ≠ D.owner →
        match ((s.setDomain name none).addDomain D.owner name (D.extend json).toObj).2 with
        | .error _ => False
        | .ok (some _) => D.extend json = D
        | .ok none => True := by
  have hget : s.domains.get? name = some (some D) := Option.join_eq_some_iff.1 hD
  have howner : (D.extend json).owner = D.owner := by
    rw [Domain.extend_owner, overlay_absent hform]
  have hsame : s.setDomain name (some (D.extend json)) = s ↔ D.extend json = D := by
    rw [setDomain_eq_self hget, Option.some.injEq]
  have hstored : (s.setDomain name (some (D.extend json))).getDomain? name = some (D.extend json) := by
    rw [getDomain?, setDomain, Dict.get?_set_self]
    rfl
  have husers : (s.setDomain name (some (D.extend json))).users = s.users := rfl
  rw [editDomain, hD]
  dsimp only
  rw [updateDomain, hstored]
  dsimp only
  rw [husers, howner]
  cases hU : s.users.get? D.owner with
  | none => exact ⟨fun hs => hsame.1 (hs fun he => by cases he), fun hs _ => hsame.2 hs⟩
  | some owner =>
    dsimp only
    by_cases hname : owner.name = D.owner
    · rw [if_neg (not_not.2 hname.symm)]
      exact iff_of_true (fun he => absurd rfl he) fun hne => absurd hname hne
    · rw [if_pos (Ne.symm hname), setDomain_setDomain]
      refine Iff.trans ?_ (forall_prop_of_true hname).symm
      rcases hadd : (s.setDomain name none).addDomain D.owner name (D.extend json).toObj with ⟨s', r⟩
      rcases addDomain_cases hadd with ⟨rfl, hr⟩ | ⟨-, rfl, -⟩
      · rcases r with f | (_ | res)
        · refine iff_of_false (fun hs => ?_) id
          have hback := (setDomain_eq_self hget).1 (hs fun he => by cases he)
          cases hback
        · exact absurd rfl hr
        · dsimp only
          rw [setDomain_setDomain, hsame]
          constructor
          · intro hs
            exact hs fun he => by cases he
          · intro hs _
            exact hs
      · exact iff_of_true (fun he => absurd rfl he) trivial

/-- A failed update of an edited plan leaves no trace only if the edit itself, but for the reasons
of suspension, changed nothing. -/
theorem editPlan_kept_iff {P Q : Plan} (hP : s.plans.get? name = some P) {r}
    (h : (s.setPlan name Q).updatePlan name .live = (s', r)) (hr : r ≠ .ok none) :
    s' = s ↔ Q.core = P.core ∧ SameReasons s s' := by
  rcases updatePlan_cases h with ⟨hs, -⟩ | ⟨-, -, -, -, -, -, -, he, -⟩
  · constructor
    · intro he
      rw [he] at hs ⊢
      refine ⟨?_, fun _ => rfl, fun _ => rfl⟩
      have hcore := hs.plan_core name
      rw [hP, setPlan, Dict.get?_set_self] at hcore
      exact (Option.some.inj hcore).symm
    · rintro ⟨hcore, hsame⟩
      exact hsame.eq ((Resuspended.setPlan hP hcore).trans hs)
  · exact absurd he hr

/-- The stored record is suspended without fail when a count is above its limit. -/
theorem Orderly.suspendOver_live (h : Orderly s) (hp : name ∈ s.plans) {m : Measure} (reason : String) {P : Plan} {n : Nat}
    (htotal : s.total m s.fuel P = .ok n) :
    ∃ s' b, suspendOver m reason name P s .live = ((s', .live), .ok b) ∧ Orderly s' ∧ Beside name s s' := by
  unfold suspendOver
  rw [htotal]
  dsimp only
  split
  · obtain ⟨s', hrun, horderly, -⟩ := h.suspendPlan hp reason
    have hbeside := Beside.suspendPlan s name reason
    rw [hrun] at hbeside
    refine ⟨s', true, ?_, horderly, hbeside⟩
    rw [suspendData, hrun]
  · exact ⟨s, false, rfl, h, .refl name s⟩

/-- In an orderly store an update that passes its check does what it is asked to. -/
theorem Orderly.updatePlan_live (h : Orderly s) (hr : s.Ranked) (hcheck : s.updatePlanCheck name = .ok none) :
    (s.updatePlan name .live).2 = .ok none := by
  unfold updatePlanCheck at hcheck
  unfold updatePlan
  cases hP : s.plans.get? name with
  | none =>
    rw [hP] at hcheck
    cases hcheck
  | some P =>
    rw [hP] at hcheck
    have hread : s.readData name P .live = P := by
      rw [readData, hP]
      rfl
    dsimp only at hcheck ⊢
    rw [hread, if_neg fun hne => hne rfl]
    cases hU : s.users.get? P.owner with
    | none =>
      rw [hU] at hcheck
      cases hcheck
    | some U =>
      rw [hU] at hcheck
      dsimp only at hcheck ⊢
      cases hparent : s.plans.get? U.plan with
      | none =>
        rw [hparent] at hcheck
        cases hcheck
      | some parent =>
        rw [hparent] at hcheck
        dsimp only at hcheck ⊢
        rcases hadd : parent.checkAddPlan P.limits with f | (_ | res)
        · rw [hadd] at hcheck
          cases hcheck
        · rw [hadd] at hcheck
          dsimp only [guarded] at hcheck ⊢
          cases hl : s.getPlansByPlanName name deepest with
          | error f =>
            rw [hl] at hcheck
            cases hcheck
          | ok l =>
            have hunder : ∀ q ∈ l, s.Under name q := fun q hq => under_of_getPlansByPlanName hl hq
            obtain ⟨s₁, hlower, hlowered⟩ := h.lowerSubPlans
              (fun q hq => (hunder q hq).mem_plans h.integrity.linked) P.planMaximums
            have hP₁ : s₁.plans.get? name = some P := by
              rw [hlowered.untouched name fun r hwhy => (hunder name hwhy.1).ne hr rfl, hP]
            obtain ⟨rank, hrank⟩ := id hr
            have hrank₁ : ∀ x y, y ∈ s₁.subs x → rank x < rank y := by
              intro x y hy
              rw [subs, funext hlowered.same.seats, funext hlowered.same.ownPlans] at hy
              exact hrank x y hy
            have htotal : ∀ m, s₁.total m s₁.fuel P = .ok (s₁.load m name) := fun m =>
              hlowered.orderly.integrity.linked.total_load ⟨rank, hrank₁⟩ m hP₁
            obtain ⟨s₂, b₂, husers, h₂, hbeside⟩ := hlowered.orderly.suspendOver_live (Dict.mem_of_get? hP₁)
              "maxUserCount" (htotal userMeasure)
            have htotal₂ : s₂.total domainMeasure s₂.fuel P = .ok (s₁.load domainMeasure name) := by
              rw [hbeside.fuel, hbeside.total hrank₁ domainMeasure hP₁ (Nat.le_refl _)]
              exact htotal domainMeasure
            obtain ⟨s₃, b₃, hdomains, -, -⟩ := h₂.suspendOver_live (hbeside.mem_plans.2 (Dict.mem_of_get? hP₁))
              "maxDomainCount" htotal₂
            dsimp only
            rw [hlower]
            dsimp only
            rw [husers]
            dsimp only
            rw [hdomains]
        · rw [hadd] at hcheck
          cases hcheck

theorem Ranked.setPlan {P Q : Plan} (hr : s.Ranked) (hP : s.plans.get? name = some P) (husers : Q.users = P.users) :
    (s.setPlan name Q).Ranked := by
  obtain ⟨rank, hrank⟩ := hr
  refine ⟨rank, fun x y hy => hrank x y ?_⟩
  obtain ⟨u, hu, hown⟩ := mem_subs.1 hy
  rw [seats_setPlan] at hu
  refine mem_subs.2 ⟨u, ?_, hown⟩
  split at hu
  · rename_i hx
    rw [hx, seats_of_get? hP, ← husers]
    exact hu
  · exact hu

end Store

namespace Panel
variable {p : Panel} {h : Helpers} {c : Submission} {username update_name : String}

def UserRefused (h : Helpers) (p : Panel) (update_name : String) (c : Submission) : Prop :=
  (p.db.editUser update_name c.json).2 ≠ .ok none ∨
    (∃ user new_plan, p.db.users.get? update_name = some user ∧ c.json.get? "plan" = some new_plan ∧
      JsVal.strictEq (.str user.plan) new_plan = false ∧ (p.moveUserHome h update_name new_plan.toKey).2 ≠ .ok none) ∨
    (c.person_password.truthy = true ∧ h.updatePassword ≠ .ok none)

def EditKept (h : Helpers) (p : Panel) (username update_name : String) (c : Submission) : Prop :=
  (p.submit h username (some update_name) c).2 ≠ .ok none →
    (c.form = .addUser → p.UserRefused h update_name c) →
      (p.submit h username (some update_name) c).1.db = p.db

/-- The form comes to where the user's record is written. -/
def WritesUser (h : Helpers) (p : Panel) (username update_name : String) (c : Submission) (user : User) : Prop :=
  match c.json.get? "plan" with
  | none => username = update_name
  | some new_plan =>
    JsVal.strictEq (.str user.plan) new_plan = true ∨ (p.moveUserHome h update_name new_plan.toKey).2 = .ok none

/-- A password that cannot be changed comes with an edit that changes nothing. -/
def UserEditMild (h : Helpers) (p : Panel) (username update_name : String) (c : Submission) : Prop :=
  ∀ user, p.db.users.get? update_name = some user → p.WritesUser h username update_name c user →
    c.person_password.truthy = true → h.updatePassword ≠ .ok none → user.extend c.json = user

/-- Where the owner of a domain is not found under the name in his record, the edit changes nothing,
and the domain that is added again is not thrown out. -/
def DomainEditMild (h : Helpers) (p : Panel) (update_name : String) (c : Submission) : Prop :=
  ∀ domain, p.db.getDomain? update_name = some domain → h.appGetOptions = .ok () →
    match p.db.users.get? domain.owner with
    | none => domain.extend c.json = domain
    | some owner => owner.name ≠ domain.owner →
      match ((p.db.setDomain update_name none).addDomain domain.owner update_name
        (domain.extend c.json).toObj).2 with
      | .error _ => False
      | .ok (some _) => domain.extend c.json = domain
      | .ok none => True

/-- An edit of a plan that is refused changes nothing, and one that is thrown out while plans are
suspended adds no reason to any. -/
def PlanEditMild (p : Panel) (update_name : String) (c : Submission) : Prop :=
  ∀ plan, p.db.plans.get? update_name = some plan →
    let edited := Store.editedPlan plan (planJson c.json) c.planMaximums
    let s := p.db.setPlan update_name edited
    (s.updatePlanCheck update_name ≠ .ok none → edited = plan) ∧
      (s.updatePlanCheck update_name = .ok none → (s.updatePlan update_name .live).2 ≠ .ok none →
        edited.core = plan.core ∧ Store.SameReasons p.db (s.updatePlan update_name .live).1)

def EditMild (h : Helpers) (p : Panel) (username update_name : String) (c : Submission) : Prop :=
  match c.form with
  | .addUser => p.UserEditMild h username update_name c
  | .addDomain => p.DomainEditMild h update_name c
  | .addPlan => p.PlanEditMild update_name c

def PlanRefusalMild (p : Panel) (update_name : String) (c : Submission) : Prop :=
  ∀ plan, p.db.plans.get? update_name = some plan →
    let edited := Store.editedPlan plan (planJson c.json) c.planMaximums
    (p.db.setPlan update_name edited).updatePlanCheck update_name ≠ .ok none → edited = plan

/-- The same where the store is orderly: the domain has its owner, and what the check lets pass succeeds. -/
def RefusalMild (h : Helpers) (p : Panel) (username update_name : String) (c : Submission) : Prop :=
  match c.form with
  | .addUser => p.UserEditMild h username update_name c
  | .addDomain => True
  | .addPlan => p.PlanRefusalMild update_name c

/-- The record is written whatever becomes of the password. -/
theorem writeUser_failed {user : User} (hU : p.db.users.get? update_name = some user)
    (hgiven : c.person_password.truthy = true) (hfail : h.updatePassword ≠ .ok none) :
    (p.writeUser h username update_name c).1.db = p.db.setUser update_name (user.extend c.json) ∧
      (p.writeUser h username update_name c).2 ≠ .ok none := by
  unfold writeUser withStore
  rw [Store.editUser_eq hU, hgiven]
  dsimp only
  rw [if_pos rfl]
  rcases hpass : h.updatePassword with f | (_ | err)
  · exact ⟨rfl, fun he => by cases he⟩
  · exact absurd hpass hfail
  · have hends : SameAccess { p with db := p.db.setUser update_name (user.extend c.json) }
        (endSessions { p with db := p.db.setUser update_name (user.extend c.json) } username update_name c.json).1 :=
      endSessions_same update_name
    dsimp only
    rcases hrun : endSessions { p with db := p.db.setUser update_name (user.extend c.json) } username update_name
      c.json with ⟨q, f | (_ | err')⟩
    · rw [hrun] at hends
      exact ⟨hends.1, fun he => by cases he⟩
    · rw [hrun] at hends
      exact ⟨hends.1, fun he => by cases he⟩
    · rw [hrun] at hends
      exact ⟨hends.1, fun he => by cases he⟩

theorem writeUser_kept_iff {user : User} {q : Panel} (hU : q.db.users.get? update_name = some user)
    {refused : Prop} (hrefused : refused ↔ c.person_password.truthy = true ∧ h.updatePassword ≠ .ok none) :
    ((q.writeUser h username update_name c).2 ≠ .ok none → refused →
        (q.writeUser h username update_name c).1.db = q.db) ↔
      (c.person_password.truthy = true → h.updatePassword ≠ .ok none → user.extend c.json = user) := by
  constructor
  · intro hkept hgiven hfail
    obtain ⟨hdb, herr⟩ := @writeUser_failed q h c username update_name user hU hgiven hfail
    have hback := hkept herr (hrefused.2 ⟨hgiven, hfail⟩)
    rw [hdb] at hback
    exact (Store.setUser_eq_self hU).1 hback
  · intro hmild _ hr
    obtain ⟨hgiven, hfail⟩ := hrefused.1 hr
    rw [(writeUser_failed hU hgiven hfail).1]
    exact (Store.setUser_eq_self hU).2 (hmild hgiven hfail)

theorem editUser_kept_iff :
    ((p.sessionEditUser h username update_name c).2 ≠ .ok none → p.UserRefused h update_name c →
        (p.sessionEditUser h username update_name c).1.db = p.db) ↔ p.UserEditMild h username update_name c := by
  unfold sessionEditUser UserEditMild
  cases hU : p.db.users.get? update_name with
  | none => exact iff_of_true (fun _ _ => rfl) fun user he => by cases he
  | some user =>
    have hone : (∀ user', some user = some user' → p.WritesUser h username update_name c user' →
          c.person_password.truthy = true → h.updatePassword ≠ .ok none → user'.extend c.json = user') ↔
        (p.WritesUser h username update_name c user →
          c.person_password.truthy = true → h.updatePassword ≠ .ok none → user.extend c.json = user) := by
      constructor
      · intro hall
        exact hall user rfl
      · intro hall user' he
        cases he
        exact hall
    have hedit : (p.db.editUser update_name c.json).2 = .ok none := by
      rw [Store.editUser_eq hU]
    have hpassword : (∀ new_plan, c.json.get? "plan" = some new_plan → JsVal.strictEq (.str user.plan) new_plan = false →
        (p.moveUserHome h update_name new_plan.toKey).2 = .ok none) →
          (p.UserRefused h update_name c ↔ c.person_password.truthy = true ∧ h.updatePassword ≠ .ok none) := by
      intro hmoved
      constructor
      · rintro (hr | ⟨user', new_plan, hU', hplan, hne, hmove⟩ | hr)
        · exact absurd hedit hr
        · rw [hU] at hU'
          cases hU'
          exact absurd (hmoved new_plan hplan hne) hmove
        · exact hr
      · intro hr
        exact .inr (.inr hr)
    rw [hone]
    unfold WritesUser
    cases hplan : c.json.get? "plan" with
    | none =>
      rw [hplan] at hpassword
      dsimp only
      split
      · next hself =>
        refine (writeUser_kept_iff hU (hpassword fun _ he => by cases he)).trans ?_
        exact ⟨fun hm _ => hm, fun hm => hm hself⟩
      · next hself => exact iff_of_true (fun _ _ => rfl) fun he => absurd he hself
    | some new_plan =>
      rw [hplan] at hpassword
      dsimp only
      by_cases heq : JsVal.strictEq (.str user.plan) new_plan = true
      · rw [if_pos heq]
        have hsame := hpassword fun new_plan' he hne => by
          cases he
          rw [heq] at hne
          cases hne
        refine (writeUser_kept_iff hU hsame).trans ?_
        exact ⟨fun hm _ => hm, fun hm => hm (.inl heq)⟩
      · rw [if_neg heq]
        have hmoved := moveUserHome_same (p := p) (h := h) update_name new_plan.toKey
        rcases hmove : p.moveUserHome h update_name new_plan.toKey with ⟨q, f | (_ | err)⟩
        · rw [hmove] at hmoved
          refine iff_of_true (fun _ _ => hmoved.1) fun he => ?_
          rcases he with he | he
          · exact absurd he heq
          · cases he
        · rw [hmove] at hmoved
          have hsame := hpassword fun new_plan' he _ => by
            cases he
            rw [hmove]
          have hU' : q.db.users.get? update_name = some user := by
            rw [hmoved.1]
            exact hU
          have hkept := @writeUser_kept_iff h c username update_name user _ hU' _ hsame
          rw [hmoved.1] at hkept
          refine hkept.trans ?_
          exact ⟨fun hm _ => hm, fun hm => hm (.inr rfl)⟩
        · rw [hmove] at hmoved
          refine iff_of_true (fun _ _ => hmoved.1) fun he => ?_
          rcases he with he | he
          · exact absurd he heq
          · cases he

theorem editDomain_mild_iff (hform : "owner" ∉ c.json) :
    ((p.sessionEditDomain h update_name c).2 ≠ .ok none → (p.sessionEditDomain h update_name c).1.db = p.db) ↔
      p.DomainEditMild h update_name c := by
  unfold sessionEditDomain DomainEditMild
  cases hD : p.db.getDomain? update_name with
  | none => exact iff_of_true (fun _ => rfl) fun D he => by cases he
  | some D =>
    dsimp only
    rcases h.appGetOptions with f | ⟨⟩
    · exact iff_of_true (fun _ => rfl) fun D' _ he => by cases he
    · refine (Store.editDomain_kept_iff hD hform).trans ?_
      constructor
      · intro hm D' he _
        cases he
        exact hm
      · intro hm
        exact hm D rfl rfl

theorem editPlan_mild_iff :
    ((p.sessionEditPlan update_name c).2 ≠ .ok none → (p.sessionEditPlan update_name c).1.db = p.db) ↔
      p.PlanEditMild update_name c := by
  unfold sessionEditPlan PlanEditMild withStore Store.editPlan
  cases hP : p.db.plans.get? update_name with
  | none => exact iff_of_true (fun _ => rfl) fun P he => by cases he
  | some P =>
    have hone : ∀ {A : Plan → Prop}, (∀ P', some P = some P' → A P') ↔ A P := by
      intro A
      constructor
      · intro hall
        exact hall P rfl
      · intro hall P' he
        cases he
        exact hall
    rw [hone]
    dsimp only
    by_cases hcheck : (p.db.setPlan update_name (Store.editedPlan P (planJson c.json) c.planMaximums)).updatePlanCheck
        update_name = .ok none
    · rcases hupd : (p.db.setPlan update_name (Store.editedPlan P (planJson c.json) c.planMaximums)).updatePlan
        update_name .live with ⟨s', r⟩
      rw [hcheck]
      constructor
      · intro hs
        refine ⟨fun he => absurd rfl he, fun _ hr => ?_⟩
        exact (Store.editPlan_kept_iff hP hupd hr).1 (hs hr)
      · rintro ⟨-, hs⟩ hr
        exact (Store.editPlan_kept_iff hP hupd hr).2 (hs rfl hr)
    · rw [Store.updatePlan_refused hcheck]
      constructor
      · intro hs
        exact ⟨fun _ => (Store.setPlan_eq_self hP).1 (hs hcheck), fun he => absurd he hcheck⟩
      · rintro ⟨hs, -⟩ _
        exact (Store.setPlan_eq_self hP).2 (hs hcheck)

theorem domainEditMild_of_orderly (hdb : p.db.Orderly) : p.DomainEditMild h update_name c := by
  intro domain hD _
  have hown : p.db.domainOwner update_name = some domain.owner := by
    rw [Store.domainOwner, hD]
    rfl
  have hmem := (hdb.integrity.domain update_name domain.owner).1 hown
  cases hU : p.db.users.get? domain.owner with
  | none =>
    rw [Store.ownDomains, hU] at hmem
    cases hmem
  | some owner => exact fun hne => absurd (hdb.userName domain.owner owner hU) hne

theorem planEditMild_iff_of_orderly (hform : c.OfForm) (hc : c.form = .addPlan) (hdb : p.db.Orderly) (hr : p.db.Ranked)
    (hname : "name" ∉ c.json) (hreasons : "suspended" ∉ c.json) :
    p.PlanEditMild update_name c ↔ p.PlanRefusalMild update_name c := by
  refine forall₂_congr fun P hP => and_iff_left fun hcheck hfail => absurd ?_ hfail
  have husers : (Store.editedPlan P (planJson c.json) c.planMaximums).users = P.users := by
    rw [Store.editedPlan, Plan.extend_users]
    exact overlay_absent (hform.planJson_absent hc (by decide)) _ _
  have horderly : (p.db.setPlan update_name (Store.editedPlan P (planJson c.json) c.planMaximums)).Orderly := by
    apply hdb.writePlan hP _ husers
    · rw [Store.editedPlan, Plan.extend_name]
      exact overlay_absent (planJson_absent hname (by decide) (by decide)) _ _
    · rw [Store.editedPlan, Plan.extend_suspended, overlay_absent (planJson_absent hreasons (by decide) (by decide))]
      exact hdb.planReasons update_name P hP
    · rw [Store.editedPlan, Plan.extend_owner]
      exact overlay_absent (hform.planJson_absent hc (by decide)) _ _
  exact horderly.updatePlan_live (hr.setPlan hP husers) hcheck

/-- A rejected edit leaves the store as it was exactly where what was written before the rejection
is what was there. -/
theorem editKept_iff_mild (p : Panel) (h : Helpers) (username update_name : String) (c : Submission) (hform : c.OfForm) :
    p.EditKept h username update_name c ↔ p.EditMild h username update_name c := by
  unfold EditKept EditMild submit
  dsimp only
  cases hc : c.form with
  | addUser =>
    refine Iff.trans ?_ editUser_kept_iff
    constructor
    · intro hkept herr hrefused
      exact hkept herr fun _ => hrefused
    · intro hkept herr hrefused
      exact hkept herr (hrefused rfl)
  | addDomain =>
    have hlacks : "owner" ∉ c.json := by
      intro hm
      have hfield := hform _ hm
      rw [hc] at hfield
      exact absurd hfield (by decide)
    refine Iff.trans ?_ (editDomain_mild_iff hlacks)
    constructor
    · intro hkept herr
      exact hkept herr fun he => by cases he
    · intro hkept herr _
      exact hkept herr
  | addPlan =>
    refine Iff.trans ?_ editPlan_mild_iff
    constructor
    · intro hkept herr
      exact hkept herr fun he => by cases he
    · intro hkept herr _
      exact hkept herr

/-- In an orderly store with a form that leaves the name and the suspension of a plan alone, only the refusals count. -/
theorem edit_kept_iff (p : Panel) (h : Helpers) (username update_name : String) (c : Submission) (hform : c.OfForm) :
    (p.EditKept h username update_name c ↔ p.EditMild h username update_name c) ∧
      (p.db.Orderly → p.db.Ranked → (c.form = .addPlan → "name" ∉ c.json ∧ "suspended" ∉ c.json) →
        (p.EditKept h username update_name c ↔ p.RefusalMild h username update_name c)) := by
  have hkept := editKept_iff_mild p h username update_name c hform
  refine ⟨hkept, fun hdb hr hleft => hkept.trans ?_⟩
  unfold EditMild RefusalMild
  cases hc : c.form with
  | addUser => exact Iff.rfl
  | addDomain => exact iff_of_true (domainEditMild_of_orderly hdb) trivial
  | addPlan =>
    obtain ⟨hname, hreasons⟩ := hleft hc
    exact planEditMild_iff_of_orderly hform hc hdb hr hname hreasons

def moveForm : Submission :=
  { form := .addUser, json := Dict.ofList [("plan", .str "silver"), ("panel_access", .bool true)]
    planMaximums := .empty, person_password := .str "", person_username_ok := .undefined }

/-- The form of a plan with more users than the plan of its owner may have. -/
def raisedForm : Submission :=
  { form := .addPlan
    json := Dict.ofList [("maxUserCount", .str "200000"), ("maxDomainCount", .str "5")]
    planMaximums := .empty, person_password := .undefined, person_username_ok := .undefined }

def tiered : Panel := { served with db := Store.tiers }

/-- A move that fails leaves no trace, and a limit that is refused does. -/
theorem edit_kept_sample :
    ((served.submit { readyHelpers with moveUserHome := .ok (some "UserMoveError") } "ann" (some "bob") moveForm).2 =
        .ok (some "UserMoveError") ∧
      served.EditKept { readyHelpers with moveUserHome := .ok (some "UserMoveError") } "ann" "bob" moveForm) ∧
      ¬tiered.EditKept readyHelpers "ann" "gold" raisedForm := by
  have hmove : moveForm.OfForm := by
    change ∀ k ∈ moveForm.json.keys, k ∈ moveForm.form.fields
    decide
  have hraised : raisedForm.OfForm := by
    change ∀ k ∈ raisedForm.json.keys, k ∈ raisedForm.form.fields
    decide
  refine ⟨⟨by decide +kernel, (edit_kept_iff _ _ _ _ _ hmove).1.2 ?_⟩, fun hkept => ?_⟩
  · intro user _ _ hgiven
    exact absurd hgiven (by decide)
  · have hranked : Store.tiers.Ranked := Store.ranked_of_all Store.tierOf (by decide)
    have hmild : tiered.PlanRefusalMild "gold" raisedForm :=
      ((edit_kept_iff tiered readyHelpers "ann" "gold" raisedForm hraised).2 Store.orderly_tiers hranked
        fun _ => ⟨by decide, by decide⟩).1 hkept
    have hsame := hmild Store.gold Store.gold_eq (by decide +kernel)
    have hless := congrArg (fun P : Plan => P.maxUserCount.strictEq (.num (.int 200000))) hsame
    exact absurd hless (by decide +kernel)

/-- The edit is refused, and the plan has what it asked for. -/
theorem refused_limit_taken : ¬∀ (p : Panel) (h : Helpers) (username update_name : String) (c : Submission),
    c.OfForm → p.EditKept h username update_name c := by
  intro h
  have hform : raisedForm.OfForm := by
    change ∀ k ∈ raisedForm.json.keys, k ∈ raisedForm.form.fields
    decide
  have hkept := h served readyHelpers "ann" "gold" raisedForm hform (by decide +kernel) fun he => by cases he
  have hraised : ((served.submit readyHelpers "ann" (some "gold") raisedForm).1.db.plans.get? "gold").map
      (fun P => P.maxUserCount.strictEq (.num (.int 200000))) = some true := by
    decide +kernel
  rw [hkept] at hraised
  exact absurd hraised (by decide +kernel)

end Panel
end JXPanel

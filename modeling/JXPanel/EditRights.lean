import JXPanel.Moments
import JXPanel.PlanUpdates
import JXPanel.Refusals
import JXPanel.Rollback

namespace JXPanel
set_option autoImplicit true

namespace Store

/-- There is the record that a form is about. -/
def Has (s : Store) : RecordForm → String → Prop
  | .addUser, id => id ∈ s.users
  | .addDomain, id => (s.getDomain? id).isSome
  | .addPlan, id => id ∈ s.plans

/-- Whose record may be edited by `w`. -/
def Owns (s : Store) (w : String) : RecordForm → String → Prop
  | .addUser, id => id = w ∨ s.isOwnerOfUser w id = .ok true
  | .addDomain, id => s.isOwnerOfDomain w id = .ok true
  | .addPlan, id => s.isOwnerOfPlan w id = .ok true

def SameRecord (s s' : Store) : RecordForm → String → Prop
  | .addUser, id => s'.users.get? id = s.users.get? id
  | .addDomain, id => s'.getDomain? id = s.getDomain? id
  | .addPlan, id => s'.plans.get? id = s.plans.get? id

/-- A record that was there is changed only where `w` owned it before. -/
def KeepsToOwn (s s' : Store) (w : String) : Prop :=
  ∀ form id, s.Has form id → s.SameRecord s' form id ∨ s.Owns w form id

/-- The change keeps to the records that `w` owns, he owns them afterwards as well, and records are
new only for the forms that are named. -/
structure Within (w : String) (new : RecordForm → Prop) (s s' : Store) : Prop where
  own : KeepsToOwn s s' w
  owned : ∀ form id, s.Has form id → s.Owns w form id → s'.Owns w form id
  old : ∀ form id, s'.Has form id → s.Has form id ∨ new form

variable {s s' : Store} {w u p d id name : String} {new : RecordForm → Prop} {json : Obj}

theorem isOwnerOfPlan_iff : s.isOwnerOfPlan w p = .ok true ↔ p ∈ s.ownPlans w := by
  unfold isOwnerOfPlan getPlansByUserName
  cases hW : s.users.get? w with
  | none =>
    rw [ownPlans, hW]
    exact iff_of_false (fun h => by cases h) List.not_mem_nil
  | some W =>
    rw [ownPlans_of_get? hW]
    dsimp only
    rw [Collect.concatM_eq (g := fun o => [o]) fun o _ => if_pos rfl, List.flatMap_singleton']
    exact Iff.trans ⟨Except.ok.inj, congrArg Except.ok⟩ decide_eq_true_iff

theorem isOwnerOfDomain_iff : s.isOwnerOfDomain w d = .ok true ↔ d ∈ s.ownDomains w := by
  unfold isOwnerOfDomain getDomainsByUserName
  cases hW : s.users.get? w with
  | none =>
    rw [ownDomains, hW]
    exact iff_of_false (fun h => by cases h) List.not_mem_nil
  | some W =>
    rw [ownDomains_of_get? hW]
    exact Iff.trans ⟨Except.ok.inj, congrArg Except.ok⟩ decide_eq_true_iff

theorem getUsersByPlanName_one (hp : p ∈ s.plans) : s.getUsersByPlanName 1 p = .ok (s.seats p) := by
  obtain ⟨P, hP⟩ := Dict.mem_iff.1 hp
  rw [getUsersByPlanName, hP, seats_of_get? hP]
  dsimp only
  rw [Collect.concatM_eq (g := fun o => [o]) fun o _ => if_pos rfl, List.flatMap_singleton']

/-- The plans of the owner have to be there, all of them. -/
theorem isOwnerOfUser_iff : s.isOwnerOfUser w u = .ok true ↔
    (∀ q ∈ s.ownPlans w, q ∈ s.plans) ∧ ∃ q ∈ s.ownPlans w, u ∈ s.seats q := by
  unfold isOwnerOfUser getUsersByUserName
  cases hW : s.users.get? w with
  | none =>
    rw [ownPlans, hW]
    refine iff_of_false (fun h => by cases h) ?_
    rintro ⟨-, q, hq, -⟩
    exact absurd hq List.not_mem_nil
  | some W =>
    rw [ownPlans_of_get? hW]
    dsimp only
    constructor
    · intro h
      obtain ⟨arr, harr, h⟩ := Collect.bind_ok.1 h
      have hmem : u ∈ arr := of_decide_eq_true (Except.ok.inj h)
      have hfound : ∀ q ∈ W.subPlans.keys, q ∈ s.plans := by
        intro q hq
        obtain ⟨a, ha, -⟩ := Collect.concatM_part harr q hq
        by_contra hn
        rw [getUsersByPlanName, Dict.get?_eq_none.2 hn] at ha
        cases ha
      refine ⟨hfound, ?_⟩
      obtain ⟨q, hq, a, ha, hu⟩ := (Collect.mem_concatM harr).1 hmem
      rw [getUsersByPlanName_one (hfound q hq)] at ha
      cases ha
      exact ⟨q, hq, hu⟩
    · rintro ⟨hfound, q, hq, hu⟩
      rw [Collect.concatM_eq fun o ho => getUsersByPlanName_one (hfound o ho)]
      have hmem : u ∈ W.subPlans.keys.flatMap s.seats := List.mem_flatMap.2 ⟨q, hq, hu⟩
      exact congrArg Except.ok (decide_eq_true hmem)

/-- What is owned stays so while no plan leaves the lists that ownership goes by. -/
theorem Owns.mono {form : RecordForm} (h : s.Owns w form id) (hid : s.Has form id)
    (hplans : ∀ q ∈ s.ownPlans w, q ∈ s'.ownPlans w)
    (hfound : ∀ q ∈ s'.ownPlans w, q ∈ s.ownPlans w ∨ q ∈ s'.plans) (hkept : ∀ q ∈ s.plans, q ∈ s'.plans)
    (hseats : ∀ q, ∀ v ∈ s.seats q, v ∈ s'.seats q)
    (hdomains : ∀ d ∈ s.ownDomains w, (s.getDomain? d).isSome → d ∈ s'.ownDomains w) : s'.Owns w form id := by
  cases form with
  | addUser =>
    rcases h with rfl | h
    · exact .inl rfl
    · obtain ⟨hall, q, hq, hu⟩ := isOwnerOfUser_iff.1 h
      refine .inr (isOwnerOfUser_iff.2 ⟨fun o ho => ?_, q, hplans q hq, hseats q id hu⟩)
      rcases hfound o ho with hold | hnew
      · exact hkept o (hall o hold)
      · exact hnew
  | addDomain => exact isOwnerOfDomain_iff.2 (hdomains id (isOwnerOfDomain_iff.1 h) hid)
  | addPlan => exact isOwnerOfPlan_iff.2 (hplans id (isOwnerOfPlan_iff.1 h))

namespace Within

theorem refl (w : String) (new : RecordForm → Prop) (s : Store) : Within w new s s := by
  refine ⟨fun form id _ => .inl ?_, fun _ _ _ h => h, fun _ _ h => .inl h⟩
  cases form with
  | addUser => rfl
  | addDomain => rfl
  | addPlan => rfl

/-- A user's record is written with his lists as they were. -/
theorem setUser {U V : User} (hU : s.users.get? u = some U) (hplans : V.subPlans = U.subPlans)
    (hdomains : V.domains = U.domains) (hown : s.Owns w .addUser u) : Within w new s (s.setUser u V) := by
  have howns : ∀ v, (s.setUser u V).ownPlans v = s.ownPlans v := by
    intro v
    rw [ownPlans_setUser]
    split
    · next he => rw [he, ownPlans_of_get? hU, hplans]
    · rfl
  have hdoms : ∀ v, (s.setUser u V).ownDomains v = s.ownDomains v := by
    intro v
    rw [ownDomains_setUser]
    split
    · next he => rw [he, ownDomains_of_get? hU, hdomains]
    · rfl
  refine ⟨fun form id _ => ?_, fun form id hid h => ?_, fun form id h => .inl ?_⟩
  · cases form with
    | addUser =>
      by_cases he : id = u
      · exact .inr (he ▸ hown)
      · exact .inl (Dict.get?_set_ne _ _ he)
    | addDomain => exact .inl rfl
    | addPlan => exact .inl rfl
  · apply h.mono hid
    · intro q hq
      rw [howns]
      exact hq
    · intro q hq
      rw [howns] at hq
      exact .inl hq
    · exact fun _ hq => hq
    · exact fun _ _ hv => hv
    · intro d hd _
      rw [hdoms]
      exact hd
  · cases form with
    | addUser =>
      rcases Dict.mem_set.1 h with rfl | h
      · exact Dict.mem_of_get? hU
      · exact h
    | addDomain => exact h
    | addPlan => exact h

theorem setDomain {D : Domain} (hd : (s.getDomain? d).isSome) (hown : s.Owns w .addDomain d) :
    Within w new s (s.setDomain d (some D)) := by
  refine ⟨fun form id _ => ?_, fun form id hid h => ?_, fun form id h => .inl ?_⟩
  · cases form with
    | addUser => exact .inl rfl
    | addDomain =>
      by_cases he : id = d
      · exact .inr (he ▸ hown)
      · exact .inl (congrArg Option.join (Dict.get?_set_ne _ _ he))
    | addPlan => exact .inl rfl
  · exact h.mono hid (fun _ hq => hq) (fun _ hq => .inl hq) (fun _ hq => hq) (fun _ _ hv => hv) fun _ hq _ => hq
  · cases form with
    | addUser => exact h
    | addDomain =>
      by_cases he : id = d
      · exact he ▸ hd
      · have hsame : (s.setDomain d (some D)).getDomain? id = s.getDomain? id :=
          congrArg Option.join (Dict.get?_set_ne _ _ he)
        rw [Has, hsame] at h
        exact h
    | addPlan => exact h

/-- Of the plans only one that is owned changed, and none of its users is gone. -/
theorem beside (h : Beside p s s') (hseats : ∀ q, s'.seats q = s.seats q) (hdomains : s'.domains = s.domains)
    (hown : s.Owns w .addPlan p) : Within w new s s' := by
  have howns : s'.ownPlans w = s.ownPlans w := by rw [ownPlans, ownPlans, h.users]
  have hdoms : s'.ownDomains w = s.ownDomains w := by rw [ownDomains, ownDomains, h.users]
  have hget : ∀ id, s'.getDomain? id = s.getDomain? id := by
    intro id
    rw [getDomain?, getDomain?, hdomains]
  refine ⟨fun form id _ => ?_, fun form id hid hw => ?_, fun form id hid => .inl ?_⟩
  · cases form with
    | addUser => exact .inl (congrArg (fun us : Dict String User => us.get? id) h.users)
    | addDomain => exact .inl (hget id)
    | addPlan =>
      by_cases he : id = p
      · exact .inr (he ▸ hown)
      · exact .inl (h.plans id he)
  · apply hw.mono hid
    · intro q hq
      rw [howns]
      exact hq
    · intro q hq
      rw [howns] at hq
      exact .inl hq
    · exact fun _ hq => h.mem_plans.2 hq
    · intro q v hv
      rw [hseats]
      exact hv
    · intro d hd _
      rw [hdoms]
      exact hd
  · cases form with
    | addUser =>
      rw [Has, h.users] at hid
      exact hid
    | addDomain =>
      rw [Has, hget] at hid
      exact hid
    | addPlan => exact h.mem_plans.1 hid

/-- A new user takes a seat on a plan that is owned. -/
theorem attachUser {U : User} (hname : name ∉ s.users) (hplans : U.subPlans.keys = []) (hnew : new .addUser)
    (hown : s.Owns w .addPlan p) : Within w new s (s.attachUser p name U) := by
  refine ⟨fun form id hid => ?_, fun form id hid h => ?_, fun form id h => ?_⟩
  · cases form with
    | addUser =>
      refine .inl (Dict.get?_set_ne _ _ ?_)
      rintro rfl
      exact hname hid
    | addDomain => exact .inl rfl
    | addPlan =>
      by_cases he : id = p
      · exact .inr (he ▸ hown)
      · exact .inl (Dict.get?_modify_ne _ _ he)
  · have hne : ∀ {q}, q ∈ s.ownPlans w → w ≠ name := by
      rintro q hq rfl
      exact hname (mem_users_of_ownPlans hq)
    apply h.mono hid
    · intro q hq
      rw [ownPlans_attachUser, if_neg (hne hq)]
      exact hq
    · intro q hq
      rw [ownPlans_attachUser] at hq
      split at hq
      · rw [hplans] at hq
        exact absurd hq List.not_mem_nil
      · exact .inl hq
    · exact fun _ hq => Dict.mem_modify.2 hq
    · exact fun q v hv => (mem_seats_attachUser s).2 (.inl hv)
    · intro d hd _
      rw [ownDomains_attachUser, if_neg]
      · exact hd
      · rintro rfl
        obtain ⟨U, hU, -⟩ := mem_ownDomains.1 hd
        exact hname (Dict.mem_of_get? hU)
  · cases form with
    | addUser => exact .inr hnew
    | addDomain => exact .inl h
    | addPlan => exact .inl (Dict.mem_modify.1 h)

/-- A new plan is listed with its owner. -/
theorem attachPlan {P : Plan} (hname : name ∉ s.plans) (hnew : new .addPlan) :
    Within w new s (s.attachPlan w name P) := by
  refine ⟨fun form id hid => ?_, fun form id hid h => ?_, fun form id h => ?_⟩
  · cases form with
    | addUser =>
      by_cases he : id = w
      · exact .inr (.inl he)
      · exact .inl (Dict.get?_modify_ne _ _ he)
    | addDomain => exact .inl rfl
    | addPlan =>
      refine .inl (Dict.get?_set_ne _ _ ?_)
      rintro rfl
      exact hname hid
  · apply h.mono hid
    · exact fun q hq => (mem_ownPlans_attachPlan s).2 (.inl hq)
    · intro q hq
      rcases (mem_ownPlans_attachPlan s).1 hq with hq | ⟨-, -, rfl⟩
      · exact .inl hq
      · exact .inr (Dict.mem_set.2 (.inl rfl))
    · exact fun q hq => Dict.mem_set.2 (.inr hq)
    · intro q v hv
      rw [seats_attachPlan, if_neg]
      · exact hv
      · rintro rfl
        exact hname (mem_plans_of_seat hv)
    · intro d hd _
      rw [ownDomains_attachPlan]
      exact hd
  · cases form with
    | addUser => exact .inl (Dict.mem_modify.1 h)
    | addDomain => exact .inl h
    | addPlan => exact .inr hnew

/-- A new domain is listed with its owner, who may have lost it again. -/
theorem ofDomain {f : User → User} (hplans : ∀ U, (f U).subPlans = U.subPlans)
    (hdomains : ∀ U, ∀ d ∈ U.domains, d ≠ name → d ∈ (f U).domains) (hname : s.getDomain? name = none)
    (hnew : new .addDomain) {ds : Dict String (Option Domain)} (hds : ∀ d, d ≠ name → ds.get? d = s.domains.get? d) :
    Within w new s { s with users := s.users.modify w f, domains := ds } := by
  have hne : ∀ {d}, (s.getDomain? d).isSome → d ≠ name := by
    rintro d hd rfl
    rw [hname] at hd
    cases hd
  have howns : ∀ v, (s.modifyUser w f).ownPlans v = s.ownPlans v := ownPlans_modifyUser s hplans w
  refine ⟨fun form id hid => ?_, fun form id hid h => ?_, fun form id h => ?_⟩
  · cases form with
    | addUser =>
      by_cases he : id = w
      · exact .inr (.inl he)
      · exact .inl (Dict.get?_modify_ne _ _ he)
    | addDomain => exact .inl (congrArg Option.join (hds id (hne hid)))
    | addPlan => exact .inl rfl
  · apply h.mono hid
    · intro q hq
      rw [← howns] at hq
      exact hq
    · intro q hq
      rw [← howns]
      exact .inl hq
    · exact fun _ hq => hq
    · exact fun _ _ hv => hv
    · intro d hd hdom
      obtain ⟨W, hW, hd⟩ := mem_ownDomains.1 hd
      refine mem_ownDomains.2 ⟨f W, ?_, hdomains W d hd (hne hdom)⟩
      exact (Dict.get?_modify_self _ _ _).trans (congrArg (Option.map f) hW)
  · cases form with
    | addUser => exact .inl (Dict.mem_modify.1 h)
    | addDomain => exact .inr hnew
    | addPlan => exact .inl h

/-- Of the domains only records change, and all of them are owned. -/
theorem ofRecords (husers : s'.users = s.users) (hplans : s'.plans = s.plans)
    (hdomains : ∀ d, (s'.getDomain? d).isSome → (s.getDomain? d).isSome)
    (hown : ∀ d, s.Has .addDomain d → s.Owns w .addDomain d) : Within w new s s' := by
  have howns : ∀ q, s'.ownPlans q = s.ownPlans q := fun q => by rw [ownPlans, ownPlans, husers]
  have hdoms : ∀ q, s'.ownDomains q = s.ownDomains q := fun q => by rw [ownDomains, ownDomains, husers]
  have hseats : ∀ q, s'.seats q = s.seats q := fun q => by rw [seats, seats, hplans]
  refine ⟨fun form id hid => ?_, fun form id hid h => ?_, fun form id hid => .inl ?_⟩
  · cases form with
    | addUser => exact .inl (congrArg (fun us : Dict String User => us.get? id) husers)
    | addDomain => exact .inr (hown id hid)
    | addPlan => exact .inl (congrArg (fun ps : Dict String Plan => ps.get? id) hplans)
  · apply h.mono hid
    · intro q hq
      rw [howns]
      exact hq
    · intro q hq
      rw [howns] at hq
      exact .inl hq
    · intro q hq
      rw [hplans]
      exact hq
    · intro q v hv
      rw [hseats]
      exact hv
    · intro d hd _
      rw [hdoms]
      exact hd
  · cases form with
    | addUser =>
      rw [Has, husers] at hid
      exact hid
    | addDomain => exact hdomains id hid
    | addPlan =>
      rw [Has, hplans] at hid
      exact hid

end Within

/-- Assigning ports writes records of domains that are there, and nothing else. -/
theorem setPorts_records {max : Int} {n : Nat} {names : List String} {current : Int} {r}
    (h : setPorts max n names current s = (s', r)) : s'.users = s.users ∧ s'.plans = s.plans ∧
      ∀ d, (s'.getDomain? d).isSome → (s.getDomain? d).isSome := by
  induction names generalizing current s s' r with
  | nil =>
    cases h
    exact ⟨rfl, rfl, fun _ hd => hd⟩
  | cons name names ih =>
    unfold setPorts at h
    cases hD : s.getDomain? name with
    | none =>
      rw [hD] at h
      cases h
      exact ⟨rfl, rfl, fun _ hd => hd⟩
    | some D =>
      rw [hD] at h
      have hold : ∀ d, ((s.setDomain name (some (D.takePorts max n current).1)).getDomain? d).isSome →
          (s.getDomain? d).isSome := by
        intro d hd
        by_cases he : d = name
        · rw [he, hD]
          rfl
        · rw [getDomain?_setDomain, if_neg he] at hd
          exact hd
      dsimp only at h
      rcases hrun : setPorts max n names (current + n) (s.setDomain name (some (D.takePorts max n current).1)) with
        ⟨s₁, r₁⟩
      obtain ⟨husers, hplans, hdomains⟩ := ih hrun
      rw [hrun] at h
      rcases r₁ with f | changed
      · cases h
        exact ⟨husers, hplans, fun d hd => hold d (hdomains d hd)⟩
      · cases h
        exact ⟨husers, hplans, fun d hd => hold d (hdomains d hd)⟩

theorem setPortRangeText_records {min max ports_per_domain : String} {r}
    (h : s.setPortRangeText min max ports_per_domain = (s', r)) : s'.users = s.users ∧ s'.plans = s.plans ∧
      ∀ d, (s'.getDomain? d).isSome → (s.getDomain? d).isSome := by
  unfold setPortRangeText at h
  dsimp only at h
  split at h
  · next hrun =>
    cases h
    exact setPorts_records hrun
  · next hrun =>
    obtain ⟨husers, hplans, hdomains⟩ := setPorts_records hrun
    cases h
    exact ⟨husers, hplans, hdomains⟩

theorem Within.applySettings (c : Settings) (hown : ∀ d, s.Has .addDomain d → s.Owns w .addDomain d) :
    Within w new s (s.applySettings c).1 := by
  obtain ⟨husers, hplans, hdomains⟩ := setPortRangeText_records
    (Prod.eta ((s.setConfigValue "jx_monitor_api" (.bool c.jx_monitor_api.truthy)).setPortRangeText c.jx_app_min_port
      c.jx_app_max_port c.jx_app_port_per_domain)).symm
  exact .ofRecords husers hplans hdomains hown

/-- What an edit of a plan reads of it when no plan below has too much of the new maximums. -/
theorem lowerSubPlans_idle {max_new : Obj} {l : List String} (h : ∀ q ∈ l, ∀ o, ¬s.Over max_new q o) :
    (s.lowerSubPlans max_new l).1 = s := by
  unfold Store.lowerSubPlans
  apply Collect.runAll_keeps (P := fun t => t = s)
  · rintro t e he rfl
    apply Collect.runAll_keeps (P := fun t' => t' = t)
    · rintro t' q hq rfl
      unfold Store.lowerSubPlan
      cases hQ : t'.plans.get? q with
      | none => rfl
      | some Q =>
        dsimp only
        rw [if_neg]
        intro hmuch
        refine h q hq e.1 (over_iff_mem.2 ⟨e.2, he, ?_⟩)
        rw [tooMuch, hQ]
        exact hmuch
    · rfl
  · rfl

theorem suspendOver_live {K : Store → Prop} (hs : K s) (hsuspend : ∀ t o, K t → K (t.suspendPlan p o).1) (m : Measure)
    (reason : String) (plan : Plan) :
    K (suspendOver m reason p plan s .live).1.1 ∧ (suspendOver m reason p plan s .live).1.2 = .live := by
  unfold suspendOver
  cases s.total m s.fuel plan with
  | error f => exact ⟨hs, rfl⟩
  | ok count =>
    dsimp only
    split
    · rcases hrun : s.suspendPlan p reason with ⟨t, f | ⟨⟩⟩
      · have ht := hsuspend s reason hs
        rw [hrun] at ht
        rw [suspendData, hrun]
        exact ⟨ht, rfl⟩
      · have ht := hsuspend s reason hs
        rw [hrun] at ht
        rw [suspendData, hrun]
        exact ⟨ht, rfl⟩
    · exact ⟨hs, rfl⟩

/-- What suspending a plan and lifting it keep, an update of the stored record keeps. -/
theorem updatePlan_live {K : Store → Prop} (hs : K s) {P : Plan} (hP : s.plans.get? p = some P)
    (hidle : ∀ q ∈ s.plansBelow p, ∀ o, ¬s.Over P.planMaximums q o)
    (hsuspend : ∀ t o, K t → K (t.suspendPlan p o).1) (hlift : ∀ t o, K t → K (t.unSuspendPlan p o).1) :
    K (s.updatePlan p .live).1 := by
  have hread : s.readData p P .live = P := by
    rw [readData, hP]
    rfl
  unfold Store.updatePlan
  rw [hP]
  dsimp only
  rw [hread, if_neg (not_not.2 rfl)]
  cases s.users.get? P.owner with
  | none => exact hs
  | some user =>
    dsimp only
    cases s.plans.get? user.plan with
    | none => exact hs
    | some parent =>
      dsimp only
      unfold guarded
      rcases parent.checkAddPlan P.limits with f | (_ | res)
      · exact hs
      · dsimp only
        cases hbelow : s.getPlansByPlanName p deepest with
        | error f => exact hs
        | ok l =>
          obtain ⟨r₁, hrun₁⟩ : ∃ r₁, s.lowerSubPlans P.planMaximums l = (s, r₁) := by
            refine ⟨_, Prod.ext ?_ rfl⟩
            apply lowerSubPlans_idle
            intro q hq
            apply hidle
            rw [plansBelow, hbelow]
            exact hq
          dsimp only
          rw [hrun₁]
          rcases r₁ with f | ⟨⟩
          · exact hs
          · have hsecond := suspendOver_live hs hsuspend userMeasure "maxUserCount" P
            dsimp only
            rcases hrun₂ : suspendOver userMeasure "maxUserCount" p P s .live with ⟨⟨s₂, d₂⟩, f | b₂⟩
            · rw [hrun₂] at hsecond
              exact hsecond.1
            · rw [hrun₂] at hsecond
              obtain ⟨hs₂, hd₂⟩ := hsecond
              dsimp only at hs₂ hd₂ ⊢
              rw [hd₂]
              have hthird := suspendOver_live hs₂ hsuspend domainMeasure "maxDomainCount" P
              rcases hrun₃ : suspendOver domainMeasure "maxDomainCount" p P s₂ .live with ⟨⟨s₃, d₃⟩, f | b₃⟩
              · rw [hrun₃] at hthird
                exact hthird.1
              · rw [hrun₃] at hthird
                obtain ⟨hs₃, hd₃⟩ := hthird
                dsimp only at hs₃ hd₃ ⊢
                rw [hd₃]
                split
                · exact hlift s₃ none hs₃
                · exact hs₃
      · exact hs

/-- A plan below has more of a maximum than the edit of a plan leaves it. -/
def Lowers (s : Store) (p : String) (Q : Plan) : Prop :=
  ∃ q ∈ (s.setPlan p Q).plansBelow p, ∃ o, (s.setPlan p Q).Over Q.planMaximums q o

theorem Within.editPlan {planMaximums : Obj} (hform : "users" ∉ json) (hown : s.Owns w .addPlan p)
    (hidle : ∀ P, s.plans.get? p = some P → ¬s.Lowers p (editedPlan P json planMaximums)) :
    Within w new s (s.editPlan p json planMaximums).1 := by
  unfold Store.editPlan
  cases hP : s.plans.get? p with
  | none => exact .refl w new s
  | some P =>
    dsimp only
    have husers : (editedPlan P json planMaximums).users = P.users := by
      change (P.extend json).users = P.users
      rw [Plan.extend_users]
      exact overlay_absent hform _ _
    have hbeside : Beside p s (s.setPlan p (editedPlan P json planMaximums)) := .setPlan (Dict.mem_of_get? hP) _
    have hseats : ∀ q, (s.setPlan p (editedPlan P json planMaximums)).seats q = s.seats q := by
      intro q
      rw [seats_setPlan]
      split
      · next he => rw [he, seats_of_get? hP, husers]
      · rfl
    have hsteps : Beside p s ((s.setPlan p (editedPlan P json planMaximums)).updatePlan p .live).1 ∧
        Resuspended (s.setPlan p (editedPlan P json planMaximums))
          ((s.setPlan p (editedPlan P json planMaximums)).updatePlan p .live).1 := by
      apply updatePlan_live
        (K := fun t => Beside p s t ∧ Resuspended (s.setPlan p (editedPlan P json planMaximums)) t)
        ⟨hbeside, .refl _⟩ (Dict.get?_set_self _ _ _)
      · intro q hq o hover
        exact hidle P hP ⟨q, hq, o, hover⟩
      · rintro t o ⟨ht, hsame⟩
        exact ⟨ht.trans (.suspendPlan t p o), hsame.trans (suspendPlan_resuspended t p o)⟩
      · rintro t o ⟨ht, hsame⟩
        exact ⟨ht.trans (.unSuspendPlan t p o), hsame.trans (unSuspendPlan_resuspended t p o)⟩
    obtain ⟨hrun, hsame⟩ := hsteps
    exact .beside hrun (fun q => (hsame.seats q).trans (hseats q)) hsame.domains hown

/-- The edit of a domain whose owner is found under the name that he has. -/
theorem Within.editDomain (hform : "owner" ∉ json) (hown : s.Owns w .addDomain d)
    (hname : ∀ D U, s.getDomain? d = some D → s.users.get? D.owner = some U → U.name = D.owner) :
    Within w new s (s.editDomain d json).1 := by
  unfold Store.editDomain
  cases hD : s.getDomain? d with
  | none => exact .refl w new s
  | some D =>
    have hsome : (s.getDomain? d).isSome := by rw [hD]; rfl
    have hstored : (s.setDomain d (some (D.extend json))).getDomain? d = some (D.extend json) := by
      rw [getDomain?, Store.setDomain, Dict.get?_set_self]
      rfl
    have howner : (D.extend json).owner = D.owner := by
      rw [Domain.extend_owner]
      exact overlay_absent hform _ _
    dsimp only
    cases hU : s.users.get? D.owner with
    | none =>
      have hrun : (s.setDomain d (some (D.extend json))).updateDomain d (D.extend json) =
          (s.setDomain d (some (D.extend json)), .error .typeError) := by
        have hnone : (s.setDomain d (some (D.extend json))).users.get? (D.extend json).owner = none := howner ▸ hU
        rw [Store.updateDomain, hstored]
        dsimp only
        rw [hnone]
      rw [hrun]
      exact .setDomain hsome hown
    | some U =>
      have hsomeU : (s.setDomain d (some (D.extend json))).users.get? (D.extend json).owner = some U := howner ▸ hU
      have hkept : (D.extend json).owner = U.name := howner.trans (hname D U hD hU).symm
      have hrun := updateDomain_same hstored hsomeU hkept
      rw [hrun]
      dsimp only
      rw [setDomain_setDomain]
      exact .setDomain hsome hown

/-- A domain that is added and perhaps taken away again, by an owner with his own name. -/
theorem Within.sessionAddDomain (hform : "owner" ∉ json) (hname : ∀ U, s.users.get? w = some U → U.name = w)
    (hnew : new .addDomain) (appCreateHomeDir : Js (Option String)) :
    Within w new s (s.sessionAddDomain w json appCreateHomeDir).1 := by
  unfold Store.sessionAddDomain
  rcases s.getFreePorts with f | (_ | arr)
  · exact .refl w new s
  · exact .refl w new s
  · dsimp only
    split
    · exact .refl w new s
    · rcases hadd : s.addDomain w (prop json "name").toKey (withPorts json arr) with ⟨s', r⟩
      rcases addDomain_cases hadd with ⟨rfl, hr⟩ | ⟨hnone, rfl, U, plan, hU, -, -, rfl⟩
      · rcases r with f | (_ | err)
        · exact .refl w new s'
        · exact absurd rfl hr
        · exact .refl w new s'
      · have hown : (Domain.new (prop json "name").toKey U.name (withPorts json arr)).owner = w := by
          rw [Domain.new_owner, overlay_absent (Panel.owner_withPorts hform), hname U hU]
        have hadded : Within w new s (s.attachDomain w (prop json "name").toKey
            (Domain.new (prop json "name").toKey U.name (withPorts json arr))) := by
          apply Within.ofDomain (f := fun u => { u with domains := u.domains.set (prop json "name").toKey () })
          · exact fun _ => rfl
          · exact fun _ _ hd _ => Dict.mem_set.2 (.inr hd)
          · exact hnone
          · exact hnew
          · exact fun d hd => Dict.get?_set_ne _ _ hd
        rcases appCreateHomeDir with f | (_ | err)
        · exact hadded
        · exact hadded
        · have hgone : Within w new s ((s.attachDomain w (prop json "name").toKey
              (Domain.new (prop json "name").toKey U.name (withPorts json arr))).deleteDomain
                (prop json "name").toKey).1 := by
            rw [deleteDomain_attachDomain, hown, Dict.modify_modify]
            apply Within.ofDomain
              (f := fun u => { u with domains := (u.domains.set (prop json "name").toKey ()).erase (prop json "name").toKey })
            · exact fun _ => rfl
            · exact fun _ _ hd hne => Dict.mem_erase.2 ⟨hne, Dict.mem_set.2 (.inr hd)⟩
            · exact hnone
            · exact hnew
            · exact fun d hd => (Dict.get?_erase_ne _ hd).trans (Dict.get?_set_ne _ _ hd)
          dsimp only
          rcases hdel : (s.attachDomain w (prop json "name").toKey
            (Domain.new (prop json "name").toKey U.name (withPorts json arr))).deleteDomain
              (prop json "name").toKey with ⟨s₂, f | rep⟩
          · rw [hdel] at hgone
            exact hgone
          · rw [hdel] at hgone
            exact hgone

end Store

namespace Panel
variable {p q : Panel} {h : Helpers} {c : Submission} {w id : String} {new : RecordForm → Prop}

/-- The user's record, if there is one, is the only one that is written, and his lists are kept. -/
def WritesLists (s : Store) (name : String) (q : Panel) : Prop :=
  q.db = s ∨ ∃ U V : User, s.users.get? name = some U ∧ V.subPlans = U.subPlans ∧ V.domains = U.domains ∧
    q.db = s.setUser name V

theorem sessionEditUser_writes (hplans : "subPlans" ∉ c.json) (hdomains : "domains" ∉ c.json) (username : String) :
    WritesLists p.db id (p.sessionEditUser h username id c).1 := by
  have hsame : ∀ q q' : Panel, SameAccess q q' → WritesLists p.db id q → WritesLists p.db id q' := by
    intro q q' hqq hq
    rw [WritesLists, hqq.1]
    exact hq
  apply sessionEditUser_keeps (.inl rfl) hsame
  intro q U hqp hU
  have hUq : q.db.users.get? id = some U := by rw [hqp.1]; exact hU
  have hV : (U.extend c.json).subPlans = U.subPlans ∧ (U.extend c.json).domains = U.domains := by
    rw [User.extend_subPlans, User.extend_domains]
    exact ⟨overlay_absent hplans _ _, overlay_absent hdomains _ _⟩
  apply writeUser_keeps hUq hsame
  · right
    refine ⟨U, U.extend c.json, hU, hV.1, hV.2, ?_⟩
    rw [hqp.1]
  · intro q' hq'
    have hget : q'.db.users.get? id = some (U.extend c.json) := by
      rw [hq'.1]
      exact Dict.get?_set_self _ _ _
    have hdb : q'.db = p.db.setUser id (U.extend c.json) := by
      rw [hq'.1, hqp.1]
    rcases setFtpAccess_db (h := h) hget c.json with he | ⟨b, he⟩
    · exact .inr ⟨U, _, hU, hV.1, hV.2, he.trans hdb⟩
    · have hkey : "ftp_access" ∉ userKeys := by decide
      refine .inr ⟨U, (U.extend c.json).setFtpAccess b, hU, ?_, ?_, ?_⟩
      · rw [User.setFtpAccess, User.assign, dif_neg hkey]
        exact hV.1
      · rw [User.setFtpAccess, User.assign, dif_neg hkey]
        exact hV.2
      · rw [he, hdb]
        exact congrArg (fun us => { p.db with users := us }) (Dict.set_set _ _ _ _)

/-- A new user whom nothing mentions is there in the end, or the store is as it was. -/
theorem sessionAddUser_seated (hform : "subPlans" ∉ c.json) (hname : p.db.UserUnmentioned c.name) :
    (p.sessionAddUser h c).1.db = p.db ∨
      (Seated p.db (prop c.json "plan").toKey c.name (p.sessionAddUser h c).1 ∧
        (prop c.json "plan").toKey ∈ p.db.plans) := by
  have htry : p.tryAddUser h c = (p.withStore (p.db.addUser (prop c.json "plan").toKey c.name c.json)).andThen
      fun p => p.accountSteps h c := rfl
  rcases hadd : p.db.addUser (prop c.json "plan").toKey c.name c.json with ⟨s', r⟩
  rw [hadd] at htry
  rcases Store.addUser_cases hadd with ⟨rfl, hr⟩ | ⟨-, rfl, parent, hparent, -, rfl⟩
  · left
    rcases r with f | (_ | err)
    · unfold sessionAddUser
      rw [htry]
      dsimp only [withStore, Outcome.andThen]
      rw [if_neg hname.user]
    · exact absurd rfl hr
    · rw [sessionAddUser_returned htry]
  · have hseated : Seated p.db (prop c.json "plan").toKey c.name
        (p.withStore (p.db.attachUser (prop c.json "plan").toKey c.name (User.new c.name parent.name c.json), .ok none)).1 := by
      refine ⟨User.new c.name parent.name c.json, ?_, rfl⟩
      rw [User.new, User.extend_subPlans, overlay_absent hform]
      rfl
    have hfate := accountSteps_fate (h := h) hseated
    have hmem : (prop c.json "plan").toKey ∈ p.db.plans := Dict.mem_of_get? hparent
    have htry : p.tryAddUser h c = accountSteps h (p.withStore (p.db.attachUser (prop c.json "plan").toKey c.name
      (User.new c.name parent.name c.json), .ok none)).1 c := htry
    generalize accountSteps h _ c = out at htry hfate
    cases hfate with
    | made hq =>
      rw [sessionAddUser_returned htry]
      exact .inr ⟨hq, hmem⟩
    | thrown hq _ =>
      obtain ⟨U, hU, -⟩ := hq.get?
      rw [(sessionAddUser_thrown htry (Dict.mem_of_get? hU)).1]
      exact .inl ((hq.deleteUser hname.user).2 hname)
    | stays hq _ =>
      rw [sessionAddUser_returned htry]
      exact .inr ⟨hq, hmem⟩
    | taken hq _ =>
      rw [sessionAddUser_returned htry, hq]
      exact .inl ((hseated.deleteUser hname.user).2 hname)
    | torn hq hdel _ =>
      obtain ⟨-, -, hno⟩ := hseated.torn hname.user hq hdel
      exact absurd hname hno

end Panel

/-- What a submission by `w` asks of the store so that it stays with the records he owns: an edited
plan takes no maximum from a plan below, owners have their own names, and a new user has a new name
and a plan of the one who adds him. -/
def Submission.StaysWith (c : Submission) (s : Store) (w : String) (isUpdate : Option String) : Prop :=
  match isUpdate, c.form with
  | some _, .addUser => True
  | some id, .addDomain => ∀ D U, s.getDomain? id = some D → s.users.get? D.owner = some U → U.name = D.owner
  | some id, .addPlan => ∀ P, s.plans.get? id = some P →
      ¬s.Lowers id (Store.editedPlan P (Panel.planJson c.json) c.planMaximums)
  | none, .addUser => s.UserUnmentioned c.name ∧
      ((prop c.json "plan").toKey ∈ s.plans → s.Owns w .addPlan (prop c.json "plan").toKey)
  | none, .addDomain => ∀ U, s.users.get? w = some U → U.name = w
  | none, .addPlan => True

namespace Panel
variable {p : Panel} {h : Helpers} {c : Submission} {w : String} {isUpdate : Option String}

/-- A submission for an owned record, or for a new one. -/
theorem submit_within (hform : c.OfForm) (hown : ∀ id, isUpdate = some id → p.db.Has c.form id → p.db.Owns w c.form id)
    (hstays : c.StaysWith p.db w isUpdate) :
    Store.Within w (fun form => isUpdate = none ∧ form = c.form) p.db (p.submit h w isUpdate c).1.db := by
  have hlacks : ∀ k, k ∉ c.form.fields → k ∉ c.json := fun k hk hm => hk (hform k hm)
  unfold submit
  unfold Submission.StaysWith at hstays
  cases isUpdate with
  | some id =>
    have hown := hown id rfl
    cases hc : c.form with
    | addUser =>
      rw [hc] at hlacks hown
      have hwrites := @sessionEditUser_writes p h c id (hlacks "subPlans" (by decide))
        (hlacks "domains" (by decide)) w
      dsimp only
      rcases hwrites with he | ⟨U, V, hU, hplans, hdomains, he⟩
      · rw [he]
        exact .refl w _ _
      · rw [he]
        exact .setUser hU hplans hdomains (hown (Dict.mem_of_get? hU))
    | addDomain =>
      rw [hc] at hlacks hown hstays
      unfold sessionEditDomain
      dsimp only
      cases hD : p.db.getDomain? id with
      | none => exact .refl w _ _
      | some D =>
        have hsome : p.db.Has .addDomain id := by
          rw [Store.Has, hD]
          rfl
        dsimp only
        cases h.appGetOptions with
        | error f => exact .refl w _ _
        | ok r => exact .editDomain (hlacks "owner" (by decide)) (hown hsome) hstays
    | addPlan =>
      rw [hc] at hlacks hown hstays
      dsimp only
      by_cases hid : id ∈ p.db.plans
      · have husers : "users" ∉ planJson c.json := by
          intro hm
          rcases Dict.mem_set.1 hm with he | hm
          · exact absurd he (by decide)
          · rcases Dict.mem_set.1 hm with he | hm
            · exact absurd he (by decide)
            · exact hlacks "users" (by decide) hm
        exact .editPlan husers (hown hid) hstays
      · have hnone : (p.sessionEditPlan id c).1.db = p.db := by
          unfold sessionEditPlan withStore Store.editPlan
          rw [Dict.get?_eq_none.2 hid]
        rw [hnone]
        exact .refl w _ _
  | none =>
    dsimp only
    split
    · exact .refl w _ _
    · cases hc : c.form with
      | addUser =>
        rw [hc] at hlacks hstays
        obtain ⟨hname, hplan⟩ := hstays
        dsimp only
        rcases sessionAddUser_seated (h := h) (hlacks "subPlans" (by decide)) hname with he | ⟨⟨U, hplans, he⟩, hmem⟩
        · rw [he]
          exact .refl w _ _
        · rw [he]
          exact .attachUser hname.user hplans ⟨rfl, rfl⟩ (hplan hmem)
      | addDomain =>
        rw [hc] at hlacks hstays
        exact .sessionAddDomain (hlacks "owner" (by decide)) hstays ⟨rfl, rfl⟩ _
      | addPlan =>
        dsimp only
        unfold sessionAddPlan withStore
        rcases hadd : p.db.addPlan (some w) c.name (newPlanJson c.json c.planMaximums) with ⟨s', r⟩
        rcases Store.addPlan_cases hadd with ⟨rfl, -⟩ | ⟨hname, -, ⟨he, -⟩ | ⟨o, user, parent, plan, he, -, -, -, -, rfl⟩⟩
        · exact .refl w _ _
        · cases he
        · cases he
          exact .attachPlan hname ⟨rfl, rfl⟩

end Panel

namespace Sessions
variable {s s' : Sessions} {db : Store} {sid : String} {a u : ActiveUser}

/-- A session that is there was there before, with the same user and the same notes. -/
def Continues (sid : String) (s s' : Sessions) : Prop :=
  ∀ u, s'.users.get? sid = some u → ∃ a, s.users.get? sid = some a ∧ u.username = a.username ∧ u.edits = a.edits

theorem Continues.refl (sid : String) (s : Sessions) : Continues sid s s := fun u hu => ⟨u, hu, rfl, rfl⟩

theorem Continues.trans {s₁ : Sessions} (h : Continues sid s s₁) (h' : Continues sid s₁ s') : Continues sid s s' := by
  intro u hu
  obtain ⟨b, hb, hname, hedits⟩ := h' u hu
  obtain ⟨a, ha, hname', hedits'⟩ := h b hb
  exact ⟨a, ha, hname.trans hname', hedits.trans hedits'⟩

theorem continues_getUser (isPanelUninstalled : Bool) (now : Nat) :
    Continues sid s (s.getUser db isPanelUninstalled sid now).1 ∧
      ∀ u, (s.getUser db isPanelUninstalled sid now).2 = .ok (some u) →
        ∃ a, s.users.get? sid = some a ∧ u.username = a.username ∧ u.edits = a.edits := by
  unfold getUser
  cases ha : s.users.get? sid with
  | none => exact ⟨.refl sid s, fun u hu => by cases hu⟩
  | some a =>
    dsimp only
    split
    · refine ⟨fun u hu => ?_, fun u hu => by cases hu⟩
      cases hu
    · cases hrefresh : refresh db a with
      | error f => exact ⟨.refl sid s, fun u hu => by cases hu⟩
      | ok u =>
        have hkept := refresh_edits hrefresh
        dsimp only
        constructor
        · intro v hv
          rw [Dict.get?_set_self] at hv
          cases hv
          exact ⟨a, ha, hkept⟩
        · intro v hv
          cases hv
          exact ⟨a, rfl, hkept⟩

theorem continues_clearUserByName (username : String) : Continues sid s (s.clearUserByName username).1 := by
  apply Collect.runAll_keeps (P := fun t => Continues sid s t)
  · intro t x _ ht
    unfold clearIfNamed
    cases hx : t.users.get? x with
    | none => exact ht
    | some b =>
      dsimp only
      split
      · rw [clearUser, hx]
        intro u hu
        by_cases he : sid = x
        · rw [he, Dict.get?_erase_self] at hu
          cases hu
        · rw [Dict.get?_erase_ne _ he] at hu
          exact ht u hu
      · exact ht
  · exact .refl sid s

end Sessions

namespace Panel
variable {p q : Panel} {h : Helpers} {c : Submission} {sid w : String} {isUpdate : Option String}

/-- The sessions go on, or they end. -/
def SessionsGoOn (sid : String) (p q : Panel) : Prop := Sessions.Continues sid p.sessions q.sessions

theorem goOn_moveUserHome (user_name plan : String) : SessionsGoOn sid p (p.moveUserHome h user_name plan).1 := by
  apply Outcome.andThen_keeps (P := SessionsGoOn sid p)
  · exact .refl sid _
  · intro _ _
    apply Outcome.andThen_keeps (P := SessionsGoOn sid p)
    · unfold withHome
      split
      · exact .refl sid _
      · exact .refl sid _
    · intro _ hq
      exact hq.trans (Sessions.continues_clearUserByName user_name)

theorem goOn_setFtpAccess (name : String) (json : Obj) : SessionsGoOn sid p (p.setFtpAccess h name json).1 :=
  .refl sid _

theorem goOn_finishUser (name : String) (json : Obj) : SessionsGoOn sid p (p.finishUser h name json).1 := by
  rw [finishUser_fst]
  exact goOn_setFtpAccess name json

theorem goOn_writeUser (username name : String) : SessionsGoOn sid p (p.writeUser h username name c).1 := by
  unfold writeUser withStore
  rcases p.db.editUser name c.json with ⟨s, f | ret⟩
  · exact .refl sid _
  · dsimp only
    split
    · exact .refl sid _
    · apply Outcome.andThen_keeps (P := SessionsGoOn sid p)
      · unfold endSessions
        split
        · exact Sessions.continues_clearUserByName name
        · exact .refl sid _
      · intro _ hq
        split
        · exact hq
        · exact hq.trans (goOn_finishUser name c.json)

theorem goOn_sessionEditUser (username name : String) : SessionsGoOn sid p (p.sessionEditUser h username name c).1 := by
  unfold sessionEditUser
  split
  · exact .refl sid _
  · split
    · split
      · exact goOn_writeUser username name
      · exact .refl sid _
    · split
      · exact goOn_writeUser username name
      · apply Outcome.andThen_keeps (P := SessionsGoOn sid p)
        · exact goOn_moveUserHome name _
        · intro _ hq
          exact hq.trans (goOn_writeUser username name)

theorem goOn_makeAccount : SessionsGoOn sid p (p.makeAccount h c).1 := by
  unfold makeAccount
  split
  · exact goOn_moveUserHome _ _
  · have hadd : SessionsGoOn sid p (p.addSystemUser h c.json).1 := by
      apply Outcome.andThen_keeps (P := SessionsGoOn sid p)
      · exact .refl sid _
      · intro _ hq
        unfold placeHome withHome
        split
        · exact hq
        · exact hq
    rcases hrun : p.addSystemUser h c.json with ⟨q, f | (_ | err)⟩
    · rw [hrun] at hadd
      exact hadd
    · rw [hrun] at hadd
      exact hadd
    · rw [hrun] at hadd
      dsimp only
      rcases q.db.deleteUser c.name with ⟨db, f | rep⟩
      · exact hadd
      · exact hadd

theorem goOn_sessionAddUser : SessionsGoOn sid p (p.sessionAddUser h c).1 := by
  have htry : SessionsGoOn sid p (p.tryAddUser h c).1 := by
    apply Outcome.andThen_keeps (P := SessionsGoOn sid p)
    · exact .refl sid _
    · intro _ hq
      apply Outcome.andThen_keeps (P := SessionsGoOn sid p)
      · exact hq.trans goOn_makeAccount
      · intro _ hq'
        exact hq'.trans (goOn_finishUser _ _)
  unfold sessionAddUser
  rcases hrun : p.tryAddUser h c with ⟨q, f | r⟩
  · rw [hrun] at htry
    dsimp only
    split
    · rcases q.db.deleteUser c.name with ⟨db, g | rep⟩
      · exact htry
      · exact htry
    · exact htry
  · rw [hrun] at htry
    exact htry

/-- Whatever is submitted, no session is noted another record. -/
theorem goOn_submit : SessionsGoOn sid p (p.submit h w isUpdate c).1 := by
  unfold submit
  cases isUpdate with
  | some id =>
    cases c.form with
    | addUser => exact goOn_sessionEditUser w id
    | addDomain =>
      dsimp only
      unfold sessionEditDomain
      split
      · exact .refl sid _
      · split
        · exact .refl sid _
        · exact .refl sid _
    | addPlan => exact .refl sid _
  | none =>
    dsimp only
    split
    · exact .refl sid _
    · cases c.form with
      | addUser => exact goOn_sessionAddUser
      | addDomain => exact .refl sid _
      | addPlan => exact .refl sid _

end Panel

namespace Client
variable {x : Client} {a : ActiveUser} {h : Helpers} {c : Submission} {new : RecordForm → Prop}

def session (x : Client) : Option ActiveUser := x.panel.sessions.users.get? x.sessionId

/-- The records that the session has noted, as far as there are such records, are its user's. -/
def NotesOwn (x : Client) : Prop :=
  ∀ a, x.session = some a → ∀ form id, isRecordUpdating a form.name = some id → x.panel.db.Has form id →
    x.panel.db.Owns a.username form id

/-- A record is noted only by its owner, a submission stays with the records of its user, the ports are
assigned anew by one who owns every domain, and no one else takes a record that is noted away from its
owner and leaves it there. -/
def Rightful (x : Client) (request : ClientRequest) : Prop :=
  ∀ a, x.session = some a →
    match request with
    | .editTableData table_name id => ∀ form, tableForm table_name = some form → id ≠ "" →
        x.panel.db.Owns a.username form id
    | .sessionApply _ c => c.OfForm ∧ c.StaysWith x.panel.db a.username (isRecordUpdating a c.form.name)
    | .applySettings _ _ => ∀ d, x.panel.db.Has .addDomain d → x.panel.db.Owns a.username .addDomain d
    | .call c => ∀ (form : RecordForm) id, isRecordUpdating a form.name = some id →
        (x.panel.db.exec c).Has form id → (x.panel.db.exec c).Owns a.username form id
    | _ => True

theorem checkUser_continues (x : Client) (checkIfSuspended : Bool) (form_name : String) :
    Sessions.Continues x.sessionId x.panel.sessions (x.checkUser checkIfSuspended form_name).1.panel.sessions ∧
      (x.checkUser checkIfSuspended form_name).1.panel.db = x.panel.db ∧
        (x.checkUser checkIfSuspended form_name).1.sessionId = x.sessionId ∧
          ∀ u, (x.checkUser checkIfSuspended form_name).2 = .ok (.passed u) →
            ∃ a, x.session = some a ∧ u.username = a.username ∧ u.edits = a.edits := by
  have hget := @Sessions.continues_getUser x.panel.sessions x.panel.db x.sessionId x.isPanelUninstalled x.now
  unfold checkUser
  rcases hrun : x.panel.sessions.getUser x.panel.db x.isPanelUninstalled x.sessionId x.now with ⟨s, f | (_ | u)⟩
  · rw [hrun] at hget
    exact ⟨hget.1, rfl, rfl, fun v hv => by cases hv⟩
  · rw [hrun] at hget
    exact ⟨hget.1, rfl, rfl, fun v hv => by cases hv⟩
  · rw [hrun] at hget
    refine ⟨hget.1, rfl, rfl, fun v hv => ?_⟩
    dsimp only at hv
    split at hv
    · cases hv
    · cases hv
      exact hget.2 u rfl

/-- What is noted stays so while the records are those from before and the session goes on. -/
theorem NotesOwn.of_continues {x' : Client} (hx : x.NotesOwn) (hid : x'.sessionId = x.sessionId)
    (hdb : x'.panel.db = x.panel.db) (h : Sessions.Continues x.sessionId x.panel.sessions x'.panel.sessions) :
    x'.NotesOwn := by
  intro u hu form id hnoted hhas
  rw [session, hid] at hu
  obtain ⟨a, ha, hname, hedits⟩ := h u hu
  rw [isRecordUpdating, hedits] at hnoted
  rw [hdb] at hhas ⊢
  rw [hname]
  exact hx a ha form id hnoted hhas

theorem NotesOwn.getForm (hx : x.NotesOwn) (form : RecordForm) : (x.getForm form).1.NotesOwn := by
  obtain ⟨hgo, hdb, hid, -⟩ := x.checkUser_continues true form.name
  have hchecked : (x.checkUser true form.name).1.NotesOwn := hx.of_continues hid hdb hgo
  unfold Client.getForm
  rcases hrun : x.checkUser true form.name with ⟨x', f | (_ | _ | u)⟩
  · rw [hrun] at hchecked
    exact hchecked
  · rw [hrun] at hchecked
    exact hchecked
  · rw [hrun] at hchecked
    exact hchecked
  · rw [hrun] at hchecked
    dsimp only
    split
    · exact hchecked
    · exact hchecked

theorem getSettings_continues (x : Client) :
    Sessions.Continues x.sessionId x.panel.sessions x.getSettings.1.panel.sessions ∧
      x.getSettings.1.panel.db = x.panel.db ∧ x.getSettings.1.sessionId = x.sessionId := by
  obtain ⟨hgo, hdb, hid, -⟩ := x.checkUser_continues true "jxconfig"
  unfold Client.getSettings
  rcases hrun : x.checkUser true "jxconfig" with ⟨x', f | (_ | _ | u)⟩
  · rw [hrun] at hgo hdb hid
    exact ⟨hgo, hdb, hid⟩
  · rw [hrun] at hgo hdb hid
    exact ⟨hgo, hdb, hid⟩
  · rw [hrun] at hgo hdb hid
    exact ⟨hgo, hdb, hid⟩
  · rw [hrun] at hgo hdb hid
    dsimp only
    split
    · exact ⟨hgo, hdb, hid⟩
    · exact ⟨hgo, hdb, hid⟩

theorem NotesOwn.getSettings (hx : x.NotesOwn) : x.getSettings.1.NotesOwn := by
  obtain ⟨hgo, hdb, hid⟩ := x.getSettings_continues
  exact hx.of_continues hid hdb hgo

/-- The note that is written is for the form of the table. -/
theorem isRecordUpdating_noted {edits : Dict String String} {form form' : RecordForm} {id id' : String}
    {e : Dict String String} (he : e = edits.set form.name id ∨ e = (edits.set form.name id).set "appLog" id)
    (h : (e.get? form'.name).filter (· ≠ "") = some id') :
    (form' = form ∧ id' = id) ∨ (edits.get? form'.name).filter (· ≠ "") = some id' := by
  have happ : form'.name ≠ "appLog" := by
    cases form' with
    | addUser => decide
    | addDomain => decide
    | addPlan => decide
  have hget : e.get? form'.name = (edits.set form.name id).get? form'.name := by
    rcases he with rfl | rfl
    · rfl
    · exact Dict.get?_set_ne _ _ happ
  rw [hget] at h
  by_cases hf : form' = form
  · rw [hf, Dict.get?_set_self] at h
    exact .inl ⟨hf, (Option.some.inj (Option.filter_eq_some_iff.1 h).1).symm⟩
  · have hne : form'.name ≠ form.name := by
      intro hn
      revert hf hn
      cases form' <;> cases form <;> decide
    rw [Dict.get?_set_ne _ _ hne] at h
    exact .inr h

theorem NotesOwn.editTableData (hx : x.NotesOwn) {table_name id : String}
    (hok : x.Rightful (.editTableData table_name id)) : (x.editTableData table_name id).1.NotesOwn := by
  have hget := @Sessions.continues_getUser x.panel.sessions x.panel.db x.sessionId x.isPanelUninstalled x.now
  unfold Client.editTableData
  rcases hrun : x.panel.sessions.getUser x.panel.db x.isPanelUninstalled x.sessionId x.now with ⟨s, f | (_ | u)⟩
  · rw [hrun] at hget
    exact hx.of_continues rfl rfl hget.1
  · rw [hrun] at hget
    exact hx.of_continues rfl rfl hget.1
  · rw [hrun] at hget
    obtain ⟨hgo, -⟩ := hget
    dsimp only
    cases htable : tableForm table_name with
    | none => exact hx.of_continues rfl rfl hgo
    | some form =>
      dsimp only
      split
      · exact hx.of_continues rfl rfl hgo
      · rename_i hne
        intro v hv form' id' hnoted hhas
        obtain ⟨b, hb, hedits⟩ : ∃ b, s.users.get? x.sessionId = some b ∧ v.username = b.username ∧
            (v.edits = b.edits.set form.name id ∨ v.edits = (b.edits.set form.name id).set "appLog" id) := by
          obtain ⟨b, hb, he⟩ := Option.map_eq_some_iff.1 ((Dict.get?_modify_self _ _ _).symm.trans hv)
          refine ⟨b, hb, ?_⟩
          rw [← he]
          refine ⟨rfl, ?_⟩
          dsimp only
          split
          · exact .inr rfl
          · exact .inl rfl
        obtain ⟨hname, hedits⟩ := hedits
        obtain ⟨a, ha, hname', hedits'⟩ := hgo b hb
        rw [hname, hname']
        rcases isRecordUpdating_noted hedits hnoted with ⟨rfl, rfl⟩ | hold
        · exact hok a ha form' htable hne
        · rw [hedits'] at hold
          exact hx a ha form' id' hold hhas

/-- A submission in a session that has noted only records of its user. -/
theorem sessionApply_within (hx : x.NotesOwn) (ha : x.session = some a) (hok : x.Rightful (.sessionApply h c)) :
    Store.Within a.username (fun form => isRecordUpdating a c.form.name = none ∧ form = c.form) x.panel.db
        (x.sessionApply h c).1.panel.db ∧
      Sessions.Continues x.sessionId x.panel.sessions (x.sessionApply h c).1.panel.sessions ∧
        (x.sessionApply h c).1.sessionId = x.sessionId := by
  obtain ⟨hgo, hdb, hid, hpassed⟩ := x.checkUser_continues false c.form.name
  unfold Client.sessionApply
  rcases hrun : x.checkUser false c.form.name with ⟨x', f | (_ | _ | u)⟩
  · rw [hrun] at hgo hdb hid
    rw [hdb]
    exact ⟨.refl _ _ _, hgo, hid⟩
  · rw [hrun] at hgo hdb hid
    rw [hdb]
    exact ⟨.refl _ _ _, hgo, hid⟩
  · rw [hrun] at hgo hdb hid
    rw [hdb]
    exact ⟨.refl _ _ _, hgo, hid⟩
  · rw [hrun] at hgo hdb hid hpassed
    obtain ⟨b, hb, hname, hedits⟩ := hpassed u rfl
    rw [ha] at hb
    cases hb
    have hnote : isRecordUpdating u c.form.name = isRecordUpdating a c.form.name := by
      rw [isRecordUpdating, hedits]
      rfl
    dsimp only
    split
    · rw [hdb]
      exact ⟨.refl _ _ _, hgo, hid⟩
    · dsimp only at hdb
      rw [hname, hnote]
      have hwithin := @Panel.submit_within x'.panel h c a.username (isRecordUpdating a c.form.name) (hok a ha).1 (fun id hnoted hhas => by
          rw [hdb] at hhas ⊢
          exact hx a ha c.form id hnoted hhas) (by
          rw [hdb]
          exact (hok a ha).2)
      rw [hdb] at hwithin
      exact ⟨hwithin, hgo.trans Panel.goOn_submit, hid⟩

/-- The settings in a session of one who owns every domain. -/
theorem applySettings_within (ha : x.session = some a) {monitorRestart : Option String} {c : Settings}
    (hok : x.Rightful (.applySettings monitorRestart c)) :
    Store.Within a.username (fun _ => False) x.panel.db (x.applySettings monitorRestart c).1.panel.db ∧
      Sessions.Continues x.sessionId x.panel.sessions (x.applySettings monitorRestart c).1.panel.sessions ∧
        (x.applySettings monitorRestart c).1.sessionId = x.sessionId := by
  obtain ⟨hgo, hdb, hid, -⟩ := x.checkUser_continues false "jxconfig"
  unfold Client.applySettings
  rcases hrun : x.checkUser false "jxconfig" with ⟨x', f | (_ | _ | u)⟩
  · rw [hrun] at hgo hdb hid
    rw [hdb]
    exact ⟨.refl _ _ _, hgo, hid⟩
  · rw [hrun] at hgo hdb hid
    rw [hdb]
    exact ⟨.refl _ _ _, hgo, hid⟩
  · rw [hrun] at hgo hdb hid
    rw [hdb]
    exact ⟨.refl _ _ _, hgo, hid⟩
  · rw [hrun] at hgo hdb hid
    dsimp only at hdb ⊢
    split
    · rw [hdb]
      exact ⟨.refl _ _ _, hgo, hid⟩
    · rw [hdb]
      exact ⟨.applySettings c (hok a ha), hgo, hid⟩

/-- A change within the records of the user leaves what is noted his, if no noted record is new. -/
theorem NotesOwn.of_within {x' : Client} (hx : x.NotesOwn) (ha : x.session = some a)
    (h : Store.Within a.username new x.panel.db x'.panel.db) (hnew : ∀ form, new form → isRecordUpdating a form.name = none)
    (hgo : Sessions.Continues x.sessionId x.panel.sessions x'.panel.sessions) (hid : x'.sessionId = x.sessionId) :
    x'.NotesOwn := by
  intro u hu form id hnoted hhas
  rw [session, hid] at hu
  obtain ⟨b, hb, hname, hedits⟩ := hgo u hu
  rw [← session, ha] at hb
  cases hb
  rw [isRecordUpdating, hedits] at hnoted
  rw [hname]
  rcases h.old form id hhas with hold | hfresh
  · exact h.owned form id hold (hx a ha form id hnoted hold)
  · have hnone := hnew form hfresh
    rw [isRecordUpdating, hnoted] at hnone
    cases hnone

/-- Without a session nothing is submitted. -/
theorem checkUser_none (ha : x.session = none) (checkIfSuspended : Bool) (form_name : String) :
    x.checkUser checkIfSuspended form_name = (x, .ok .accessDenied) := by
  unfold checkUser Sessions.getUser
  rw [session] at ha
  rw [ha]

theorem sessionApply_idle (ha : x.session = none) : (x.sessionApply h c).1 = x := by
  unfold Client.sessionApply
  rw [checkUser_none ha]

theorem applySettings_idle (ha : x.session = none) {monitorRestart : Option String} {c : Settings} :
    (x.applySettings monitorRestart c).1 = x := by
  unfold Client.applySettings
  rw [checkUser_none ha]

theorem NotesOwn.sessionApply (hx : x.NotesOwn) (hok : x.Rightful (.sessionApply h c)) :
    (x.sessionApply h c).1.NotesOwn := by
  cases ha : x.session with
  | none =>
    rw [sessionApply_idle ha]
    exact hx
  | some a =>
    obtain ⟨hwithin, hgo, hid⟩ := sessionApply_within hx ha hok
    refine hx.of_within ha hwithin (fun form hnew => ?_) hgo hid
    obtain ⟨hnone, rfl⟩ := hnew
    exact hnone

theorem NotesOwn.applySettings (hx : x.NotesOwn) {monitorRestart : Option String} {c : Settings}
    (hok : x.Rightful (.applySettings monitorRestart c)) : (x.applySettings monitorRestart c).1.NotesOwn := by
  cases ha : x.session with
  | none =>
    rw [applySettings_idle ha]
    exact hx
  | some a =>
    obtain ⟨hwithin, hgo, hid⟩ := applySettings_within ha hok
    exact hx.of_within ha hwithin (fun _ hnew => hnew.elim) hgo hid

theorem NotesOwn.answer (hx : x.NotesOwn) {request : ClientRequest} (hok : x.Rightful request) :
    (x.answer request).NotesOwn := by
  cases request with
  | getForm form => exact hx.getForm form
  | getSettings => exact hx.getSettings
  | editTableData table_name id => exact hx.editTableData hok
  | sessionApply h c => exact hx.sessionApply hok
  | applySettings monitorRestart c => exact hx.applySettings hok
  | page =>
    intro u hu form id hnoted
    obtain ⟨b, -, rfl⟩ := Option.map_eq_some_iff.1 ((Dict.get?_modify_self _ _ _).symm.trans hu)
    cases hnoted
  | call c => exact fun u hu form id hnoted hhas => hok u hu form id hnoted hhas

end Client
end JXPanel

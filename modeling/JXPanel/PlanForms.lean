import JXPanel.Flags
import JXPanel.Grants
import JXPanel.Moments

namespace JXPanel
set_option autoImplicit true

/-- The permissions of a plan are those that its limits leave room for. -/
structure Plan.FlagsFollow (P : Plan) : Prop where
  users : P.canCreateUser = .bool true ↔ P.maxUserCount ≠ .num (.int 0)
  plans : P.canCreatePlan = .bool true ↔ prop P.planMaximums "plan_max_plans" ≠ .num (.int 0)

def Store.FlagsFollow (s : Store) (name : String) : Prop := ∃ P, s.plans.get? name = some P ∧ P.FlagsFollow

namespace Submission

/-- The number of users that is asked for. -/
def maxUserCount (c : Submission) : JsVal := .num (prop c.json "maxUserCount").parseInt

/-- The limits are `0` in `c` just where they are in `c₀`. -/
structure KeepsZeros (c₀ c : Submission) : Prop where
  users : c.maxUserCount = .num (.int 0) ↔ c₀.maxUserCount = .num (.int 0)
  plans : ∀ v, c.planMaximums.get? "plan_max_plans" = some v →
    (v = .num (.int 0) ↔ prop c₀.planMaximums "plan_max_plans" = .num (.int 0))

end Submission

/-- What an edit with the form makes of the record of a plan. -/
structure Plan.EditedTo (P P' : Plan) (c : Submission) : Prop where
  canCreateUser : P'.canCreateUser = P.canCreateUser
  canCreatePlan : P'.canCreatePlan = P.canCreatePlan
  maxUserCount : P'.maxUserCount = c.maxUserCount
  planMaximums : ∀ k, prop P'.planMaximums k = (c.planMaximums.get? k).getD (prop P.planMaximums k)

/-- The permissions are those of the creation with `c₀`. -/
structure Plan.MadeBy (P : Plan) (c₀ : Submission) : Prop where
  canCreateUser : P.canCreateUser = .bool (!JsVal.strictEq c₀.maxUserCount (.num (.int 0)))
  canCreatePlan : P.canCreatePlan = .bool (!JsVal.strictEq (prop c₀.planMaximums "plan_max_plans") (.num (.int 0)))

/-- The limits of a plan are `0` just where those of its creation are. -/
structure Plan.SameZeros (P : Plan) (c₀ : Submission) : Prop where
  users : P.maxUserCount = .num (.int 0) ↔ c₀.maxUserCount = .num (.int 0)
  plans : prop P.planMaximums "plan_max_plans" = .num (.int 0) ↔
    prop c₀.planMaximums "plan_max_plans" = .num (.int 0)

namespace Panel

/-- The panel after a sequence of edits of a plan. -/
def editPlans (p : Panel) (name : String) (cs : List Submission) : Panel :=
  cs.foldl (fun p c => (p.sessionEditPlan name c).1) p

/-- Each edit is made with the form, and none is refused. -/
def EditsSucceed (p : Panel) (name : String) (cs : List Submission) : Prop :=
  ∀ past c, past ++ [c] <+: cs →
    c.form = .addPlan ∧ c.OfForm ∧ ((p.editPlans name past).sessionEditPlan name c).2 = .ok none

end Panel

section
variable {P P' : Plan} {c₀ c : Submission}

theorem flag_iff {v : JsVal} : JsVal.bool (!JsVal.strictEq v (.num (.int 0))) = .bool true ↔ v ≠ .num (.int 0) := by
  rw [JsVal.bool.injEq, Bool.not_eq_true', ← Bool.not_eq_true, Plan.strictEq_int]

/-- The permissions do not change, so they are right as long as the zeros are those of the creation. -/
theorem Plan.MadeBy.flagsFollow_iff (h : P.MadeBy c₀) : P.FlagsFollow ↔ P.SameZeros c₀ := by
  have husers : P.canCreateUser = .bool true ↔ c₀.maxUserCount ≠ .num (.int 0) := by
    rw [h.canCreateUser]
    exact flag_iff
  have hplans : P.canCreatePlan = .bool true ↔ prop c₀.planMaximums "plan_max_plans" ≠ .num (.int 0) := by
    rw [h.canCreatePlan]
    exact flag_iff
  constructor
  · intro hf
    exact ⟨not_iff_not.1 (hf.users.symm.trans husers), not_iff_not.1 (hf.plans.symm.trans hplans)⟩
  · intro hz
    exact ⟨husers.trans (not_congr hz.users.symm), hplans.trans (not_congr hz.plans.symm)⟩

theorem Plan.EditedTo.madeBy (h : P.EditedTo P' c) (hm : P.MadeBy c₀) : P'.MadeBy c₀ :=
  ⟨h.canCreateUser.trans hm.canCreateUser, h.canCreatePlan.trans hm.canCreatePlan⟩

/-- The zeros are kept by an edit just when it asks for those of the creation. -/
theorem Plan.EditedTo.sameZeros_iff (h : P.EditedTo P' c) (hz : P.SameZeros c₀) :
    P'.SameZeros c₀ ↔ c₀.KeepsZeros c := by
  have hmax := h.planMaximums "plan_max_plans"
  constructor
  · intro hz'
    refine ⟨?_, ?_⟩
    · rw [← h.maxUserCount]
      exact hz'.users
    · intro v hv
      rw [hv, Option.getD_some] at hmax
      rw [← hmax]
      exact hz'.plans
  · intro hk
    refine ⟨?_, ?_⟩
    · rw [h.maxUserCount]
      exact hk.users
    · rw [hmax]
      cases hv : c.planMaximums.get? "plan_max_plans" with
      | none => exact hz.plans
      | some v => exact hk.plans v hv

theorem get?_planJson_maxUserCount (json : Obj) :
    (Panel.planJson json).get? "maxUserCount" = some (.num (prop json "maxUserCount").parseInt) := by
  rw [Panel.planJson, Dict.get?_set_ne _ _ (by decide), Dict.get?_set_self]

theorem prop_foldl_set (m new : Obj) (k : String) :
    prop (new.foldl Dict.set m) k = (new.get? k).getD (prop m k) := by
  have h := Dict.foldl_project Dict.set (fun m : Obj => prop m k) k id
    (fun r v => by rw [prop, Dict.get?_set_self]; rfl)
    (fun r k' v hk => by rw [prop, Dict.get?_set_ne _ _ hk.symm]; rfl) new m
  rw [h, Option.map_id_fun, id]

theorem Plan.new_extends {name owner : String} {opts : Obj} (h : Plan.new name owner opts = .ok P) :
    ∃ base : Plan, P = base.extend opts := by
  unfold Plan.new at h
  obtain ⟨_, -, h⟩ := Collect.bind_ok.1 h
  obtain ⟨_, -, h⟩ := Collect.bind_ok.1 h
  obtain ⟨_, -, h⟩ := Collect.bind_ok.1 h
  obtain ⟨_, -, h⟩ := Collect.bind_ok.1 h
  obtain ⟨_, -, h⟩ := Collect.bind_ok.1 h
  cases h
  exact ⟨_, rfl⟩

theorem Submission.OfForm.editedTo (hc : c.OfForm) (hform : c.form = .addPlan) (P : Plan) :
    P.EditedTo (Store.editedPlan P (Panel.planJson c.json) c.planMaximums) c := by
  have hmax : (P.extend (Panel.planJson c.json)).planMaximums = P.planMaximums := by
    rw [Plan.extend_planMaximums]
    exact overlay_absent (hc.planJson_absent hform (by decide)) _ _
  constructor
  · rw [Store.editedPlan, Plan.extend_canCreateUser]
    exact overlay_absent (hc.planJson_absent hform (by decide)) _ _
  · rw [Store.editedPlan, Plan.extend_canCreatePlan]
    exact overlay_absent (hc.planJson_absent hform (by decide)) _ _
  · rw [Store.editedPlan, Plan.extend_maxUserCount]
    exact overlay_present (get?_planJson_maxUserCount _) _ _
  · intro k
    rw [Store.editedPlan, hmax]
    exact prop_foldl_set _ _ k

/-- Only the suspension of a record differs. -/
theorem Plan.EditedTo.of_core {P₁ P₂ : Plan} (h : P.EditedTo P₁ c) (hcore : P₂.core = P₁.core) :
    P.EditedTo P₂ c := by
  constructor
  · exact (congrArg Plan.canCreateUser hcore).trans h.canCreateUser
  · exact (congrArg Plan.canCreatePlan hcore).trans h.canCreatePlan
  · exact (congrArg Plan.maxUserCount hcore).trans h.maxUserCount
  · intro k
    have hmax : P₂.core.planMaximums = P₁.core.planMaximums := congrArg Plan.planMaximums hcore
    exact (congrArg (prop · k) hmax).trans (h.planMaximums k)

namespace Panel
variable {p : Panel} {name username : String}

/-- An edit that succeeds writes the record, and then only suspends and unsuspends. -/
theorem sessionEditPlan_record (hc : c.OfForm) (hform : c.form = .addPlan) (hP : p.db.plans.get? name = some P)
    (hok : (p.sessionEditPlan name c).2 = .ok none) :
    ∃ P', (p.sessionEditPlan name c).1.db.plans.get? name = some P' ∧ P.EditedTo P' c := by
  have hedit : p.db.editPlan name (planJson c.json) c.planMaximums =
      (p.db.setPlan name (Store.editedPlan P (planJson c.json) c.planMaximums)).updatePlan name .live := by
    rw [Store.editPlan, hP]
  have hsame : Store.Resuspended (p.db.setPlan name (Store.editedPlan P (planJson c.json) c.planMaximums))
      (p.sessionEditPlan name c).1.db := by
    unfold sessionEditPlan withStore at hok ⊢
    rw [hedit] at hok ⊢
    rcases Store.updatePlan_cases (Prod.eta (Store.updatePlan _ name .live)).symm with ⟨_, hr⟩ |
      ⟨s₁, data₁, _, _, _, hs, hdata, _, hw, _⟩
    · exact absurd hok hr
    · cases data₁ with
      | copy d => cases hdata
      | live =>
        rw [hw]
        exact hs
  have hcore := hsame.plan_core name
  rw [Store.setPlan, Dict.get?_set_self, Option.map_some] at hcore
  obtain ⟨P', hP', hsusp⟩ := Option.map_eq_some_iff.1 hcore
  exact ⟨P', hP', (hc.editedTo hform P).of_core hsusp⟩

/-- What a new plan is given beside its name and owner. -/
theorem get?_newPlanJson (json planMaximums : Obj) (k : String) :
    (newPlanJson json planMaximums).get? k =
      if k = "planMaximums" then some (.obj planMaximums.entries)
      else if k = "canCreatePlan" then
        some (.bool (!JsVal.strictEq (prop planMaximums "plan_max_plans") (.num (.int 0))))
      else if k = "canCreateUser" then
        some (.bool (!JsVal.strictEq (.num (prop json "maxUserCount").parseInt) (.num (.int 0))))
      else (planJson json).get? k := by
  have husers : prop (planJson json) "maxUserCount" = .num (prop json "maxUserCount").parseInt := by
    rw [prop, get?_planJson_maxUserCount]
    rfl
  rw [newPlanJson, Dict.get?_set, Dict.get?_set, Dict.get?_set, husers]

/-- A plan is added with the permissions that its limits leave room for. -/
theorem sessionAddPlan_record (hok : (p.sessionAddPlan username c).2 = .ok none) :
    ∃ P, (p.sessionAddPlan username c).1.db.plans.get? c.name = some P ∧ P.MadeBy c ∧ P.SameZeros c := by
  rcases Store.addPlan_cases (Prod.eta (p.db.addPlan (some username) c.name (newPlanJson c.json c.planMaximums))).symm
    with ⟨_, hr⟩ | ⟨_, _, ⟨he, _⟩ | ⟨o, user, parent, plan, ho, hU, _, _, hnew, hs⟩⟩
  · exact absurd hok hr
  · cases he
  · obtain ⟨base, rfl⟩ := Plan.new_extends hnew
    refine ⟨base.extend (newPlanJson c.json c.planMaximums), ?_, ⟨?_, ?_⟩, ⟨?_, ?_⟩⟩
    · rw [sessionAddPlan, withStore, hs, Store.attachPlan]
      exact Dict.get?_set_self _ _ _
    · rw [Plan.extend_canCreateUser]
      exact overlay_present (get?_newPlanJson _ _ _) _ _
    · rw [Plan.extend_canCreatePlan]
      exact overlay_present (get?_newPlanJson _ _ _) _ _
    · have hcount : (newPlanJson c.json c.planMaximums).get? "maxUserCount" = some c.maxUserCount :=
        (get?_newPlanJson _ _ "maxUserCount").trans (get?_planJson_maxUserCount c.json)
      rw [Plan.extend_maxUserCount, overlay_present hcount]
      rfl
    · rw [Plan.extend_planMaximums, overlay_present (get?_newPlanJson _ _ _), JsVal.toObj, Dict.ofList_entries]

theorem editPlans_append (past : List Submission) :
    p.editPlans name (past ++ [c]) = ((p.editPlans name past).sessionEditPlan name c).1 := by
  rw [editPlans, List.foldl_append]
  rfl

theorem EditsSucceed.append {past : List Submission} (h : p.EditsSucceed name (past ++ [c])) :
    p.EditsSucceed name past :=
  fun early c' hearly => h early c' (hearly.trans (List.prefix_append past [c]))

theorem editsSucceed_singleton (hform : c.form = .addPlan) (hc : c.OfForm)
    (hok : (p.sessionEditPlan name c).2 = .ok none) : p.EditsSucceed name [c] := by
  intro past c' hpast
  rcases List.prefix_concat_iff.1 (show past ++ [c'] <+: [] ++ [c] from hpast) with he | hpast
  · obtain ⟨rfl, rfl⟩ := List.append_singleton_inj.1 he
    exact ⟨hform, hc, hok⟩
  · exact absurd (List.prefix_nil.1 hpast) (List.concat_ne_nil _ _)

/-- The record of a plan behind any edits of it. -/
theorem editPlans_record {cs : List Submission} (hP : ∃ P, p.db.plans.get? name = some P ∧ P.MadeBy c₀)
    (h : p.EditsSucceed name cs) : ∃ P, (p.editPlans name cs).db.plans.get? name = some P ∧ P.MadeBy c₀ := by
  induction cs using List.reverseRecOn with
  | nil => exact hP
  | append_singleton past c ih =>
    obtain ⟨P, hget, hmade⟩ := ih h.append
    obtain ⟨hform, hc, hok⟩ := h past c (List.prefix_refl _)
    obtain ⟨P', hget', hedited⟩ := sessionEditPlan_record hc hform hget hok
    rw [editPlans_append]
    exact ⟨P', hget', hedited.madeBy hmade⟩

/-- The limits of the plan, at every moment of its edits. -/
def KeepsFlags (p : Panel) (name : String) (cs : List Submission) : Prop :=
  ∀ past, past <+: cs → (p.editPlans name past).db.FlagsFollow name

theorem keepsFlags_append {cs : List Submission} :
    p.KeepsFlags name (cs ++ [c]) ↔ p.KeepsFlags name cs ∧ (p.editPlans name (cs ++ [c])).db.FlagsFollow name := by
  constructor
  · intro h
    exact ⟨fun past hpast => h past (hpast.trans (List.prefix_append cs [c])), h _ (List.prefix_refl _)⟩
  · rintro ⟨hcs, hlast⟩ past hpast
    rcases List.prefix_concat_iff.1 hpast with rfl | hpast
    · exact hlast
    · exact hcs past hpast

/-- Behind the creation of a plan its permissions follow its limits at every moment just when no
edit makes a limit `0` that was not, or the other way round. -/
theorem flags_follow_iff {cs : List Submission} (hadded : (p.sessionAddPlan username c₀).2 = .ok none)
    (hedits : (p.sessionAddPlan username c₀).1.EditsSucceed c₀.name cs) :
    (p.sessionAddPlan username c₀).1.KeepsFlags c₀.name cs ↔ ∀ c ∈ cs, c₀.KeepsZeros c := by
  obtain ⟨P₀, hP₀, hmade₀, hzero₀⟩ := sessionAddPlan_record hadded
  induction cs using List.reverseRecOn with
  | nil =>
    refine iff_of_true (fun past hpast => ?_) (fun c hc => absurd hc List.not_mem_nil)
    rw [List.prefix_nil.1 hpast]
    exact ⟨P₀, hP₀, hmade₀.flagsFollow_iff.2 hzero₀⟩
  | append_singleton past c ih =>
    obtain ⟨P, hget, hmade⟩ := editPlans_record ⟨P₀, hP₀, hmade₀⟩ hedits.append
    obtain ⟨hform, hc, hok⟩ := hedits past c (List.prefix_refl _)
    obtain ⟨P', hget', hedited⟩ := sessionEditPlan_record hc hform hget hok
    have hlast : ((p.sessionAddPlan username c₀).1.editPlans c₀.name (past ++ [c])).db.FlagsFollow c₀.name ↔
        P'.SameZeros c₀ := by
      rw [editPlans_append, Store.FlagsFollow, hget']
      constructor
      · rintro ⟨Q, hQ, hflags⟩
        cases hQ
        exact (hedited.madeBy hmade).flagsFollow_iff.1 hflags
      · intro hz
        exact ⟨P', rfl, (hedited.madeBy hmade).flagsFollow_iff.2 hz⟩
    rw [keepsFlags_append, ih hedits.append, List.forall_mem_append, hlast]
    refine and_congr_right fun hpast => ?_
    have hz : P.SameZeros c₀ := by
      obtain ⟨Q, hQ, hflags⟩ := (ih hedits.append).2 hpast past (List.prefix_refl _)
      rw [hget] at hQ
      cases hQ
      exact hmade.flagsFollow_iff.1 hflags
    rw [List.forall_mem_singleton]
    exact hedited.sameZeros_iff hz

/-- A panel with a user who may add plans. -/
def annPanel : Panel :=
  { db := installed.run [.addUser unlimitedPlanName "ann" .empty], ftp := Ftp.start none, sessions := .empty
    homes := .empty }

/-- A plan for so many users. -/
def planOfUsers (maxUserCount : String) : Submission :=
  { form := .addPlan
    json := Dict.ofList [("name", .str "silver"), ("maxUserCount", .str maxUserCount), ("maxDomainCount", .str "3")]
    planMaximums := Dict.ofList [("plan_max_plans", .num (.int (-1)))]
    person_password := .undefined, person_username_ok := .undefined }

theorem planOfUsers_ofForm (n : String) : (planOfUsers n).OfForm := by
  intro k hk
  have hkeys : k ∈ ["name", "maxUserCount", "maxDomainCount"] := hk
  exact (show ["name", "maxUserCount", "maxDomainCount"] ⊆ RecordForm.addPlan.fields by decide) hkeys

theorem flags_follow_sample :
    (annPanel.sessionAddPlan "ann" (planOfUsers "3")).1.KeepsFlags "silver" [planOfUsers "2"] := by
  have hadded : (annPanel.sessionAddPlan "ann" (planOfUsers "3")).2 = .ok none := by decide +kernel
  have hedit : ((annPanel.sessionAddPlan "ann" (planOfUsers "3")).1.sessionEditPlan "silver" (planOfUsers "2")).2 =
      .ok none := by decide +kernel
  apply (flags_follow_iff hadded (editsSucceed_singleton rfl (planOfUsers_ofForm "2") hedit)).2
  rw [List.forall_mem_singleton]
  refine ⟨iff_of_false ?_ ?_, fun v hv => ?_⟩
  · exact fun he => absurd (Plan.strictEq_int.2 he) (by decide +kernel)
  · exact fun he => absurd (Plan.strictEq_int.2 he) (by decide +kernel)
  · cases hv
    exact Iff.rfl

/-- A plan of three users is left none, and may still add users. -/
theorem lowered_plan_may_add_users :
    ¬∀ (p : Panel) (username : String) (c₀ : Submission) (cs : List Submission),
      (p.sessionAddPlan username c₀).2 = .ok none →
      (p.sessionAddPlan username c₀).1.EditsSucceed c₀.name cs →
      (p.sessionAddPlan username c₀).1.KeepsFlags c₀.name cs := by
  intro h
  have hadded : (annPanel.sessionAddPlan "ann" (planOfUsers "3")).2 = .ok none := by decide +kernel
  have hedit : ((annPanel.sessionAddPlan "ann" (planOfUsers "3")).1.sessionEditPlan "silver" (planOfUsers "0")).2 =
      .ok none := by decide +kernel
  obtain ⟨P, hP, hflags⟩ := h annPanel "ann" (planOfUsers "3") [planOfUsers "0"] hadded
    (editsSucceed_singleton rfl (planOfUsers_ofForm "0") hedit) _ (List.prefix_refl _)
  obtain ⟨Q, hQ, hbits⟩ := Option.map_eq_some_iff.1 (show
    ((((annPanel.sessionAddPlan "ann" (planOfUsers "3")).1.editPlans "silver" [planOfUsers "0"]).db.plans.get?
      "silver").map fun P => (JsVal.strictEq P.canCreateUser (.bool true),
        JsVal.strictEq P.maxUserCount (.num (.int 0)))) = some (true, true) by decide +kernel)
  cases (hP.symm.trans hQ)
  obtain ⟨hcan, hmax⟩ := Prod.mk.inj hbits
  exact hflags.users.1 (strictEq_true_iff.1 hcan) (Plan.strictEq_int.1 hmax)

end Panel

end
end JXPanel

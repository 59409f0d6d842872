import JXPanel.PlanForms
import JXPanel.Growth

namespace JXPanel
set_option autoImplicit true

theorem eraseDups_of_nodup {l : List String} (h : l.Nodup) : l.eraseDups = l := by
  induction l with
  | nil => rfl
  | cons a l ih =>
    have hne : l.filter (fun b => !b == a) = l := by
      apply List.filter_eq_self.2
      intro b hb
      rw [Bool.not_eq_true', beq_eq_false_iff_ne]
      rintro rfl
      exact h.notMem hb
    rw [List.eraseDups_cons, hne, ih h.of_cons]

theorem not_le_ofNat {m : Int} {n : Nat} : (JsVal.num (.int m)).le (.ofNat n) = false ↔ (n : Int) < m := by
  show (!decide ((n : Int) < m)) = false ↔ _
  rw [Bool.not_eq_false', decide_eq_true_iff]

namespace Store
variable {s s' : Store} {p : String}

/-- The plans that are counted are those of the users of the plan. -/
theorem Linked.getPlansByPlanName_one (h : Linked s) (hP : s.plans.get? p = some P) :
    s.getPlansByPlanName p 1 = .ok (s.subs p) := by
  have husers : s.getUsersByPlanName 1 p = .ok (s.seats p) := by
    rw [getUsersByPlanName, hP, seats_of_get? hP]
    dsimp only
    rw [Collect.concatM_eq fun o _ => if_pos rfl]
    exact congrArg Except.ok (List.flatMap_singleton' _)
  have hplans : Collect.concatM (fun u => s.getPlansByUserName 1 u) (s.seats p) = .ok (s.subs p) := by
    apply Collect.concatM_eq
    intro u hu
    obtain ⟨U, hU⟩ := Dict.mem_iff.1 (h.user_mem hu)
    rw [getPlansByUserName, hU, ownPlans_of_get? hU]
    dsimp only
    rw [Collect.concatM_eq fun o _ => if_pos rfl]
    exact congrArg Except.ok (List.flatMap_singleton' _)
  rw [getPlansByPlanName, husers]
  show (do
    let plans ← Collect.concatM (fun u => s.getPlansByUserName 1 u) (s.seats p)
    return plans.eraseDups) = _
  rw [hplans]
  exact congrArg Except.ok (eraseDups_of_nodup (h.subs_nodup p))

/-- The largest number of plans that the users of a plan may have. -/
def maxPlans (P : Plan) : JsVal := prop P.planMaximums "plan_max_plans"

/-- The form is given just while the count is below the limit, or there is none to compare it with. -/
theorem Linked.canAddNewPlan_iff (h : Linked s) (hP : s.plans.get? p = some P) (hname : P.name = p) :
    s.canAddNewPlan P = .ok none ↔ (maxPlans P).le (.ofNat (s.subs p).length) = false := by
  unfold canAddNewPlan
  rw [hname, h.getPlansByPlanName_one hP]
  show (Except.ok (if (maxPlans P).le (.ofNat (s.subs p).length) = true then _ else none) : Js (Option String)) = _ ↔ _
  cases (maxPlans P).le (.ofNat (s.subs p).length) with
  | false => exact iff_of_true rfl rfl
  | true => exact iff_of_false (fun he => by cases he) fun he => by cases he

/-- A plan that is added counts for the plan of its owner. -/
theorem mem_subs_attachPlan {o name : String} {plan : Plan} (hname : name ∉ s.plans) (hus : plan.users.keys = [])
    (ho : o ∈ s.users) {q : String} :
    q ∈ (s.attachPlan o name plan).subs p ↔ q ∈ s.subs p ∨ (q = name ∧ o ∈ s.seats p) := by
  have hseats : (s.attachPlan o name plan).seats p = s.seats p := seats_newPlan hname hus rfl p
  rw [mem_subs, mem_subs, hseats]
  constructor
  · rintro ⟨u, hu, hq⟩
    rcases (mem_ownPlans_attachPlan s).1 hq with hq | ⟨rfl, _, rfl⟩
    · exact .inl ⟨u, hu, hq⟩
    · exact .inr ⟨rfl, hu⟩
  · intro hq
    rcases hq with ⟨u, hu, hq⟩ | ⟨rfl, hu⟩
    · exact ⟨u, hu, (mem_ownPlans_attachPlan s).2 (.inl hq)⟩
    · exact ⟨o, hu, (mem_ownPlans_attachPlan s).2 (.inr ⟨rfl, ho, rfl⟩)⟩

/-- No more plans than the limit are owned by the users of a plan, and the form for another one is
given just while there are fewer or there is no limit. -/
structure PlansLimited (s : Store) (p : String) : Prop where
  count : ∀ P, s.plans.get? p = some P → ∀ m : Int, maxPlans P = .num (.int m) → maxPlans P ≠ defaultMaximum →
    ((s.subs p).length : Int) ≤ m
  admits : ∀ P, s.plans.get? p = some P → (Plan.NoLimit (maxPlans P) ∨ ∃ m : Int, maxPlans P = .num (.int m)) →
    (s.canAddNewPlan P = .ok none ↔ Plan.NoLimit (maxPlans P) ∨
      ∃ m : Int, maxPlans P = .num (.int m) ∧ ((s.subs p).length : Int) < m)

/-- The users of a plan have fewer plans than its limit says. -/
def Below (s : Store) (p : String) : Prop :=
  ∀ P, s.plans.get? p = some P → ∀ m : Int, maxPlans P = .num (.int m) → ((s.subs p).length : Int) < m

/-- What holds of a plan with the record `P₀` for as long as it is there. -/
structure Tended (s : Store) (p : String) (P₀ : Plan) : Prop where
  linked : Linked s
  named : ∀ u U, s.users.get? u = some U → U.name = u
  seated : ∀ u, s.planOf u = some p → p ∈ s.plans → u ∈ s.seats p
  record : ∀ P, s.plans.get? p = some P → P = P₀

variable {P₀ : Plan}

theorem plansLimited_iff (h : Linked s) (hP : s.plans.get? p = some P) (hname : P.name = p) :
    s.PlansLimited p ↔ maxPlans P ≠ defaultMaximum ∧
      ∀ m : Int, maxPlans P = .num (.int m) → ((s.subs p).length : Int) ≤ m := by
  have hcan := h.canAddNewPlan_iff hP hname
  constructor
  · intro hlimited
    have hne : maxPlans P ≠ defaultMaximum := by
      intro he
      have hnone := hcan.1 ((hlimited.admits P hP (.inl (.inr he))).2 (.inl (.inr he)))
      rw [he] at hnone
      have hbelow := not_le_ofNat.1 hnone
      omega
    exact ⟨hne, fun m hm => hlimited.count P hP m hm hne⟩
  · rintro ⟨hne, hcount⟩
    constructor
    · intro Q hQ m hm _
      cases hP.symm.trans hQ
      exact hcount m hm
    · intro Q hQ hkind
      cases hP.symm.trans hQ
      rw [hcan]
      rcases hkind with (hno | hno) | ⟨m, hm⟩
      · rw [hno]
        exact iff_of_true rfl (.inl (.inl rfl))
      · exact absurd hno hne
      · rw [hm]
        rw [not_le_ofNat]
        constructor
        · intro hbelow
          exact .inr ⟨m, rfl, hbelow⟩
        · intro hgiven
          rcases hgiven with (hno | hno) | ⟨n, hn, hbelow⟩
          · cases hno
          · exact absurd (hm.trans hno) hne
          · cases hn
            exact hbelow

namespace Tended

theorem attachPlan (h : Tended s p P₀) {o name : String} {plan : Plan} (hname : name ∉ s.plans) (hp : p ≠ name)
    (hus : plan.users.keys = []) (ho : plan.owner = o) : Tended (s.attachPlan o name plan) p P₀ := by
  have hseats : (s.attachPlan o name plan).seats p = s.seats p := seats_newPlan hname hus rfl p
  have hplan : (s.attachPlan o name plan).plans.get? p = s.plans.get? p := Dict.get?_set_ne _ _ hp
  subst ho
  constructor
  · exact h.linked.newPlan hname hus rfl (ownPlans_attachPlan s _ name plan) (planOf_attachPlan s _ name plan)
  · intro u U hU
    simp only [Store.attachPlan, setPlan, modifyUser, Dict.get?_modify] at hU
    split at hU
    · obtain ⟨V, hV, rfl⟩ := Option.map_eq_some_iff.1 hU
      exact h.named u V hV
    · exact h.named u U hU
  · intro u hu hmem
    rw [planOf_attachPlan] at hu
    rw [hseats]
    rw [Dict.mem_iff, hplan, ← Dict.mem_iff] at hmem
    exact h.seated u hu hmem
  · intro P hP
    rw [hplan] at hP
    exact h.record P hP

theorem deletePlan (h : Tended s p P₀) (name : String) : Tended (s.deletePlan name).1 p P₀ := by
  rcases deletePlan_cases (Prod.eta (s.deletePlan name)).symm with ⟨hs, _⟩ | ⟨plan, owner, arr, _, _, _, hs, _⟩
  · rw [hs]
    exact h
  · have hlinked := (shrinks_deletePlan s name).linked h.linked
    rw [hs] at hlinked ⊢
    have hleft : p ∈ (s.removePlan plan.owner name arr).plans → ¬(p = name ∨ p ∈ arr.plans) ∧ p ∈ s.plans := by
      intro hmem
      obtain ⟨hnot, hmem⟩ := Dict.mem_eraseAll.1 hmem
      obtain ⟨hne, hmem⟩ := Dict.mem_erase.1 hmem
      exact ⟨fun he => he.elim hne hnot, hmem⟩
    refine ⟨hlinked, ?_, ?_, ?_⟩
    · intro u U hU
      rw [get?_users_removePlan] at hU
      split at hU
      · cases hU
      · split at hU
        · obtain ⟨V, hV, rfl⟩ := Option.map_eq_some_iff.1 hU
          exact h.named u V hV
        · exact h.named u U hU
    · intro u hu hmem
      obtain ⟨hstays, hmem⟩ := hleft hmem
      rw [planOf_removePlan] at hu
      rw [seats_removePlan, if_neg hstays]
      split at hu
      · cases hu
      · exact h.seated u hu hmem
    · intro P hP
      obtain ⟨hstays, -⟩ := hleft (Dict.mem_of_get? hP)
      rw [removePlan, Dict.get?_eraseAll, if_neg fun he => hstays (.inr he),
        Dict.get?_erase_ne _ fun he => hstays (.inl he)] at hP
      exact h.record P hP

end Tended

/-- A delete leaves no more plans to the users of a plan. -/
theorem Linked.length_subs_deletePlan (h : Linked s) (name : String) :
    ((s.deletePlan name).1.subs p).length ≤ (s.subs p).length := by
  have hshrinks := shrinks_deletePlan s name
  exact ((hshrinks.linked h).subs_nodup p |>.subperm (hshrinks.lighter.subs_subset p)).length_le

/-- A plan that is added makes them one more. -/
theorem Tended.length_subs_attachPlan (h : Tended s p P₀) {o name : String} {plan : Plan} (hname : name ∉ s.plans)
    (hp : p ≠ name) (hus : plan.users.keys = []) (ho : plan.owner = o) (hseat : o ∈ s.seats p) :
    ((s.attachPlan o name plan).subs p).length = (s.subs p).length + 1 := by
  have hnew : name ∉ s.subs p := by
    intro hmem
    obtain ⟨u, hu, hq⟩ := mem_subs.1 hmem
    exact hname (h.linked.sub_mem hu hq)
  have hnodup := (h.attachPlan hname hp hus ho).linked.subs_nodup p
  apply ((List.perm_ext_iff_of_nodup hnodup (List.nodup_cons.2 ⟨hnew, h.linked.subs_nodup p⟩)).2 ?_).length_eq
  intro q
  rw [mem_subs_attachPlan hname hus (h.linked.user_mem hseat), List.mem_cons, or_comm]
  exact or_congr_left (and_iff_left hseat)

end Store

/-- The sessions of the users of a plan: who has been given the form for a new plan, and who of them
since the last plan was added. -/
structure PlanDesk where
  panel : Panel
  given : List String
  fresh : List String

inductive PlanDeskEvent
  | getForm (a : ActiveUser)
  | sessionApply (h : Helpers) (a : ActiveUser) (c : Submission)
  | deletePlan (name : String)

namespace PlanDesk
variable (x : PlanDesk) (p : String)

def getForm (a : ActiveUser) : PlanDesk :=
  match x.panel.db.renderForm a .addPlan with
  | .ok none => { x with given := a.username :: x.given, fresh := a.username :: x.fresh }
  | _ => x

/-- The form may have been given at any earlier time. -/
def sessionApply (h : Helpers) (a : ActiveUser) (c : Submission) : PlanDesk :=
  if a.username ∈ x.given then
    match x.panel.submit h a.username (isRecordUpdating a c.form.name) c with
    | (panel, .ok none) => { x with panel := panel, fresh := [] }
    | (panel, _) => { x with panel := panel }
  else x

def answer (x : PlanDesk) : PlanDeskEvent → PlanDesk
  | .getForm a => x.getForm a
  | .sessionApply h a c => x.sessionApply h a c
  | .deletePlan name => { x with panel := { x.panel with db := (x.panel.db.deletePlan name).1 } }

/-- The forms are those of new plans, and they are opened and submitted by users of the plan. -/
def ByUsers : PlanDeskEvent → Prop
  | .getForm a => x.panel.db.planOf a.username = some p ∧ isRecordUpdating a "addPlan" = none
  | .sessionApply _ a c => x.panel.db.planOf a.username = some p ∧ isRecordUpdating a "addPlan" = none ∧
      c.form = .addPlan ∧ c.OfForm
  | .deletePlan _ => True

/-- A form is submitted before another plan is added, or while there is room. -/
def Timely : PlanDeskEvent → Prop
  | .sessionApply _ a _ => a.username ∈ x.fresh ∨ x.panel.db.Below p
  | _ => True

variable {x p} {P₀ : Plan}

/-- What holds at every moment of a run: no more plans than the limit, and fewer where a form is
fresh. -/
structure Kept (x : PlanDesk) (p : String) (P₀ : Plan) : Prop where
  tended : x.panel.db.Tended p P₀
  count : ∀ m : Int, Store.maxPlans P₀ = .num (.int m) → ((x.panel.db.subs p).length : Int) ≤ m
  fresh : ∀ u ∈ x.fresh, x.panel.db.Below p

/-- A form is given only while there is room. -/
theorem below_of_renderForm {s : Store} {a : ActiveUser} (h : s.Tended p P₀) (hname : P₀.name = p)
    (hp : p ≠ unlimitedPlanName) (ha : s.planOf a.username = some p) (hadds : isRecordUpdating a "addPlan" = none)
    (hgiven : s.renderForm a .addPlan = .ok none) : s.Below p := by
  obtain ⟨me, hme, hplan⟩ := Store.planOf_eq.1 ha
  unfold Store.renderForm at hgiven
  rw [show RecordForm.addPlan.name = "addPlan" from rfl, hadds] at hgiven
  dsimp only at hgiven
  rw [if_neg (fun hne => hne rfl), hme] at hgiven
  dsimp only at hgiven
  rw [hplan, if_neg hp] at hgiven
  intro P hP m hm
  cases h.record P hP
  rw [hP] at hgiven
  have hnone := (h.linked.canAddNewPlan_iff hP hname).1 hgiven
  rw [hm] at hnone
  exact not_le_ofNat.1 hnone

theorem submit_newPlan (panel : Panel) (h : Helpers) (username : String) (c : Submission) (hform : c.form = .addPlan) :
    (panel.submit h username none c).1 = panel ∧ (panel.submit h username none c).2 ≠ .ok none ∨
      panel.submit h username none c = panel.sessionAddPlan username c := by
  unfold Panel.submit
  dsimp only
  split
  · exact .inl ⟨rfl, fun he => by cases he⟩
  · rw [hform]
    exact .inr rfl

/-- A user of the plan adds nothing, or a plan without users that is his own. -/
theorem sessionAddPlan_cases {panel : Panel} {username : String} {c : Submission} (h : panel.db.Tended p P₀)
    (hu : panel.db.planOf username = some p) (hform : c.form = .addPlan) (hc : c.OfForm) :
    (panel.sessionAddPlan username c).1 = panel ∧ (panel.sessionAddPlan username c).2 ≠ .ok none ∨
      ∃ name plan, (panel.sessionAddPlan username c).1.db = panel.db.attachPlan username name plan ∧
        (panel.sessionAddPlan username c).2 = .ok none ∧ name ∉ panel.db.plans ∧ p ≠ name ∧
        plan.users.keys = [] ∧ plan.owner = username ∧ username ∈ panel.db.seats p := by
  have habsent : ∀ k, k ∉ RecordForm.addPlan.fields ∧ k ≠ "planMaximums" ∧ k ≠ "canCreatePlan" ∧ k ≠ "canCreateUser" →
      k ∉ Panel.newPlanJson c.json c.planMaximums := by
    intro k ⟨hfield, hm, hp, hu⟩
    rw [← Dict.get?_eq_none, Panel.get?_newPlanJson, if_neg hm, if_neg hp, if_neg hu, Dict.get?_eq_none]
    exact hc.planJson_absent hform hfield
  obtain ⟨U, hU, hplan⟩ := Store.planOf_eq.1 hu
  rcases Store.addPlan_cases (Prod.eta (panel.db.addPlan (some username) c.name
    (Panel.newPlanJson c.json c.planMaximums))).symm with ⟨hs, hr⟩ |
    ⟨hname, hr, ⟨he, _⟩ | ⟨o, user, parent, plan, ho, huser, hparent, _, hnew, hs⟩⟩
  · refine .inl ⟨?_, hr⟩
    rw [Panel.sessionAddPlan, Panel.withStore, hs]
  · cases he
  · cases ho
    cases hU.symm.trans huser
    rw [hplan] at hparent
    have hmem := Dict.mem_of_get? hparent
    obtain ⟨howner, husers⟩ := Plan.new_ok hnew
    rw [ownerGiven, overlay_absent (habsent "owner" (by decide)), h.named _ U hU] at howner
    rw [usersGiven, overlay_absent (habsent "users" (by decide))] at husers
    refine .inr ⟨c.name, plan, hs, hr, hname, ?_, ?_, howner, h.seated username hu hmem⟩
    · rintro rfl
      exact hname hmem
    · rw [husers]
      rfl

theorem submitted_cases {panel : Panel} {username : String} {c : Submission} (h : panel.db.Tended p P₀)
    (hu : panel.db.planOf username = some p) (hform : c.form = .addPlan) (hc : c.OfForm) (helpers : Helpers) :
    (panel.submit helpers username none c).1 = panel ∧ (panel.submit helpers username none c).2 ≠ .ok none ∨
      ∃ name plan, (panel.submit helpers username none c).1.db = panel.db.attachPlan username name plan ∧
        (panel.submit helpers username none c).2 = .ok none ∧ name ∉ panel.db.plans ∧ p ≠ name ∧
        plan.users.keys = [] ∧ plan.owner = username ∧ username ∈ panel.db.seats p := by
  rcases submit_newPlan panel helpers username c hform with hsame | hsubmit
  · exact .inl hsame
  · rw [hsubmit]
    exact sessionAddPlan_cases h hu hform hc

theorem Kept.getForm (h : x.Kept p P₀) (hname : P₀.name = p) (hp : p ≠ unlimitedPlanName) {a : ActiveUser}
    (ha : x.panel.db.planOf a.username = some p) (hadds : isRecordUpdating a "addPlan" = none) :
    (x.getForm a).Kept p P₀ := by
  unfold PlanDesk.getForm
  split
  · rename_i hgiven
    refine ⟨h.tended, h.count, fun u hu => ?_⟩
    rcases List.mem_cons.1 hu with rfl | hu
    · exact below_of_renderForm h.tended hname hp ha hadds hgiven
    · exact h.fresh u hu
  · exact h

theorem Kept.sessionApply (h : x.Kept p P₀) {helpers : Helpers} {a : ActiveUser} {c : Submission}
    (hby : x.ByUsers p (.sessionApply helpers a c)) (htime : x.Timely p (.sessionApply helpers a c)) :
    (x.sessionApply helpers a c).Kept p P₀ := by
  obtain ⟨ha, hadds, hform, hc⟩ := hby
  have hbelow : x.panel.db.Below p := htime.elim (h.fresh a.username) id
  unfold PlanDesk.sessionApply
  split
  · rw [hform, show RecordForm.addPlan.name = "addPlan" from rfl, hadds]
    rcases submitted_cases h.tended ha hform hc helpers with ⟨hsame, hr⟩ |
      ⟨name, plan, hdb, hr, hnew, hne, hus, ho, hseat⟩
    · split
      · rename_i hok
        exact absurd (congrArg Prod.snd hok) hr
      · rename_i panel _ _ hsubmit
        rw [hsubmit] at hsame
        obtain rfl : panel = x.panel := hsame
        exact h
    · have hkept : ∀ panel : Panel, panel.db = x.panel.db.attachPlan a.username name plan →
          ({ x with panel := panel, fresh := [] } : PlanDesk).Kept p P₀ := by
        intro panel hpanel
        refine ⟨hpanel ▸ h.tended.attachPlan hnew hne hus ho, fun m hm => ?_, fun u hu => absurd hu List.not_mem_nil⟩
        obtain ⟨P, hP⟩ := Dict.mem_iff.1 (Store.mem_plans_of_seat hseat)
        have hroom := hbelow P hP m (by rw [h.tended.record P hP]; exact hm)
        rw [hpanel, h.tended.length_subs_attachPlan hnew hne hus ho hseat]
        exact hroom
      split
      · rename_i panel hsubmit
        rw [hsubmit] at hdb
        exact hkept panel hdb
      · rename_i panel res hnone hsubmit
        rw [hsubmit] at hr
        exact absurd hr hnone
  · exact h

theorem Kept.deletePlan (h : x.Kept p P₀) (name : String) : (x.answer (.deletePlan name)).Kept p P₀ := by
  have hcount := h.tended.linked.length_subs_deletePlan (p := p) name
  have htended := h.tended.deletePlan name
  refine ⟨htended, fun m hm => ?_, fun u hu P hP m hm => ?_⟩
  · exact (Int.ofNat_le.2 hcount).trans (h.count m hm)
  · cases htended.record P hP
    obtain ⟨Q, hQ, -⟩ := (Store.shrinks_deletePlan x.panel.db name).lighter.plan p _ hP
    have hroom := h.fresh u hu Q hQ m (by rw [h.tended.record Q hQ]; exact hm)
    exact (Int.ofNat_le.2 hcount).trans_lt hroom

/-- In a run whose submissions all come before another plan is added, or while there is room, the
users of a plan never have more plans than its limit, and the form is given just while they have
fewer. -/
theorem plans_limited {P : Plan} (hs : Store.Consistent x.panel.db) (hP : x.panel.db.plans.get? p = some P)
    (hp : p ≠ unlimitedPlanName) (hfresh : x.fresh = []) (hlimit : Store.maxPlans P ≠ defaultMaximum)
    (hcount : ∀ m : Int, Store.maxPlans P = .num (.int m) → ((x.panel.db.subs p).length : Int) ≤ m)
    {y : PlanDesk} (hrun : Runs.Reached answer x (fun y e => y.ByUsers p e ∧ y.Timely p e) y) :
    y.panel.db.PlansLimited p := by
  have hname : P.name = p := (hs.sound.named.plan p P hP).1
  have hstart : x.Kept p P := by
    refine ⟨⟨hs.sound.linked, fun u U hU => (hs.sound.named.user u U hU).1, fun u hu _ => ?_, fun Q hQ => ?_⟩,
      hcount, fun u hu => ?_⟩
    · exact (hs.integrity.seat u p).1 hu
    · exact Option.some.inj (hQ.symm.trans hP)
    · rw [hfresh] at hu
      exact absurd hu List.not_mem_nil
  have hkept : y.Kept p P := by
    refine hrun.keeps (P := fun y => y.Kept p P) hstart fun y e hy hok => ?_
    obtain ⟨hby, htime⟩ := hok
    cases e with
    | getForm a => exact hy.getForm hname hp hby.1 hby.2
    | sessionApply helpers a c => exact hy.sessionApply hby htime
    | deletePlan name => exact hy.deletePlan name
  cases hQ : y.panel.db.plans.get? p with
  | none =>
    constructor
    · intro Q hQ'
      cases hQ.symm.trans hQ'
    · intro Q hQ'
      cases hQ.symm.trans hQ'
  | some Q =>
    obtain rfl := hkept.tended.record Q hQ
    exact (Store.plansLimited_iff hkept.tended.linked hQ hname).2 ⟨hlimit, hkept.count⟩

/-- A plan whose users may have one plan, and a user of it. -/
def onePlanCalls : List Call :=
  [.addUser unlimitedPlanName "ann" .empty,
    .addPlan (some "ann") "gold"
      { Store.goldRequest with planMaximums := Dict.empty.set "plan_max_plans" 1 : PlanRequest }.opts,
    .addUser "gold" "bob" .empty]

def bobDesk : PlanDesk :=
  { panel := { Panel.annPanel with db := installed.run onePlanCalls }, given := [], fresh := [] }

def bobUser : ActiveUser :=
  { username := "bob", uid := 1001, gid := 1001, groupIdPrefix := "gr1", plan := some "gold", ssh := .undefined
    suspended_txt := false, terminal := false, path := none, edits := .empty }

/-- A plan of the name. -/
def planNamed (name : String) : Submission :=
  { Panel.planOfUsers "3" with json := (Panel.planOfUsers "3").json.set "name" (.str name) }

theorem planNamed_ofForm (name : String) : (planNamed name).OfForm := by
  intro k hk
  rcases Dict.mem_set.1 hk with rfl | hk
  · exact (by decide : "name" ∈ RecordForm.addPlan.fields)
  · exact Panel.planOfUsers_ofForm "3" k hk

theorem consistent_onePlanCalls : Store.Consistent (installed.run onePlanCalls) := by
  apply Store.consistent_of_adds
  apply Runs.Reached.start.run
  refine ⟨⟨by decide, by decide, by decide⟩, ⟨by decide, by decide, by decide, fun k hk _ => ?_⟩,
    ⟨by decide, by decide, by decide⟩, trivial⟩
  cases hk with
  | head => exact ⟨5, rfl⟩
  | tail _ hk =>
    cases List.mem_singleton.1 hk
    exact ⟨5, rfl⟩

theorem bob_gold : ∃ P, bobDesk.panel.db.plans.get? "gold" = some P ∧ Store.maxPlans P = .num (.int 1) := by
  obtain ⟨P, hP, hmax⟩ := Option.map_eq_some_iff.1 (show
    (bobDesk.panel.db.plans.get? "gold").map (fun P => JsVal.strictEq (Store.maxPlans P) (.num (.int 1))) =
      some true by decide +kernel)
  exact ⟨P, hP, Plan.strictEq_int.1 hmax⟩

theorem plans_limited_sample :
    ([.getForm bobUser, .sessionApply Panel.readyHelpers bobUser (planNamed "silver")].foldl answer
      bobDesk).panel.db.PlansLimited "gold" := by
  obtain ⟨P, hP, hmax⟩ := bob_gold
  refine plans_limited consistent_onePlanCalls hP (by decide) rfl ?_ ?_ (Runs.Reached.start.run ?_)
  · rw [hmax]
    exact fun he => by cases he
  · intro m hm
    rw [hmax] at hm
    cases hm
    decide +kernel
  · exact ⟨⟨⟨by decide +kernel, rfl⟩, trivial⟩,
      ⟨⟨by decide +kernel, rfl, rfl, planNamed_ofForm "silver"⟩, .inl (by decide +kernel)⟩, trivial⟩

/-- A form that was given once is submitted twice. -/
def oneFormTwoPlans : List PlanDeskEvent :=
  [.getForm bobUser, .sessionApply Panel.readyHelpers bobUser (planNamed "silver"),
    .sessionApply Panel.readyHelpers bobUser (planNamed "bronze")]

theorem two_plans_from_one_form :
    ¬∀ (x : PlanDesk) (p : String) (P : Plan), Store.Consistent x.panel.db → x.panel.db.plans.get? p = some P →
      p ≠ unlimitedPlanName → x.fresh = [] →
      (∀ m : Int, Store.maxPlans P = .num (.int m) → ((x.panel.db.subs p).length : Int) ≤ m) →
      ∀ y, Runs.Reached answer x (fun y e => y.ByUsers p e) y → y.panel.db.PlansLimited p := by
  intro h
  obtain ⟨P, hP, hmax⟩ := bob_gold
  have hstart : ∀ m : Int, Store.maxPlans P = .num (.int m) → ((bobDesk.panel.db.subs "gold").length : Int) ≤ m := by
    intro m hm
    rw [hmax] at hm
    cases hm
    decide +kernel
  have hby : Runs.AllOk answer (fun y e => y.ByUsers "gold" e) bobDesk oneFormTwoPlans :=
    ⟨⟨by decide +kernel, rfl⟩, ⟨by decide +kernel, rfl, rfl, planNamed_ofForm "silver"⟩,
      ⟨by decide +kernel, rfl, rfl, planNamed_ofForm "bronze"⟩, trivial⟩
  have hlimited := h bobDesk "gold" P consistent_onePlanCalls hP (by decide) rfl hstart _ (Runs.Reached.start.run hby)
  obtain ⟨Q, hQ, hkept⟩ := Option.map_eq_some_iff.1 (show
    ((oneFormTwoPlans.foldl answer bobDesk).panel.db.plans.get? "gold").map
      (fun P => JsVal.strictEq (Store.maxPlans P) (.num (.int 1))) = some true by decide +kernel)
  have hone := Plan.strictEq_int.1 hkept
  have hle := hlimited.count Q hQ 1 hone (by rw [hone]; exact fun he => by cases he)
  exact absurd hle (by decide +kernel)

end PlanDesk
end JXPanel

import JXPanel.Growth

namespace JXPanel
set_option autoImplicit true

/-- The limits that a new plan is asked for with, `-1` being no limit of its own. -/
structure PlanRequest where
  maxUserCount : Nat
  maxDomainCount : Nat
  canCreatePlan : Bool
  canCreateUser : Bool
  planMaximums : Dict String Int

/-- The options hold the limits of the request, whatever else they hold. -/
structure PlanRequest.AskedBy (r : PlanRequest) (opts : Obj) : Prop where
  maxUserCount : opts.get? "maxUserCount" = some (.ofNat r.maxUserCount)
  maxDomainCount : opts.get? "maxDomainCount" = some (.ofNat r.maxDomainCount)
  canCreatePlan : opts.get? "canCreatePlan" = some (.bool r.canCreatePlan)
  canCreateUser : opts.get? "canCreateUser" = some (.bool r.canCreateUser)
  planMaximums : opts.get? "planMaximums" = some (.obj (r.planMaximums.mapVals fun _ i => .num (.int i)).entries)

def PlanRequest.opts (r : PlanRequest) : Obj :=
  Dict.ofList
    [("maxUserCount", .ofNat r.maxUserCount), ("maxDomainCount", .ofNat r.maxDomainCount),
      ("canCreatePlan", .bool r.canCreatePlan), ("canCreateUser", .bool r.canCreateUser),
      ("planMaximums", .obj (r.planMaximums.mapVals fun _ i => .num (.int i)).entries)]

theorem PlanRequest.askedBy_opts (r : PlanRequest) : r.AskedBy r.opts := ⟨rfl, rfl, rfl, rfl, rfl⟩

namespace Plan
variable {p : Plan} {r : PlanRequest} {opts : Obj}

/-- Whether a maximum stands for no limit. -/
def NoLimit (limit : JsVal) : Prop := limit = .undefined ∨ limit = defaultMaximum

/-- The plan may have plans of that kind at all. -/
def MayCreate (p : Plan) (r : PlanRequest) : Prop :=
  p.canCreatePlan.truthy = true ∧ (r.canCreateUser = true → p.canCreateUser.truthy = true)

/-- The plan grants what is asked for: a maximum of `0` is a limit like any other. -/
structure Grants (p : Plan) (r : PlanRequest) : Prop where
  create : p.MayCreate r
  users : (JsVal.ofNat r.maxUserCount).le p.maxUserCount = true
  domains : (JsVal.ofNat r.maxDomainCount).le p.maxDomainCount = true
  maximums : ∀ o i, r.planMaximums.get? o = some i → i ≠ -1 →
    NoLimit (prop p.planMaximums o) ∨ (JsVal.num (.int i)).le (prop p.planMaximums o) = true

/-- The limits of the plan that the request is beyond: a count, or one of the maximums. -/
inductive Exceeds (p : Plan) (r : PlanRequest) : (isCount : Bool) → (limit : JsVal) → Prop
  | users : (JsVal.ofNat r.maxUserCount).le p.maxUserCount = false → Exceeds p r true p.maxUserCount
  | domains : (JsVal.ofNat r.maxDomainCount).le p.maxDomainCount = false → Exceeds p r true p.maxDomainCount
  | maximum {o : String} {i : Int} : r.planMaximums.get? o = some i → i ≠ -1 → ¬NoLimit (prop p.planMaximums o) →
      (JsVal.num (.int i)).le (prop p.planMaximums o) = false → Exceeds p r false (prop p.planMaximums o)

/-- A limit that is exceeded is noticed if it is a number, and for a maximum not `0`. -/
def Notices (p : Plan) (r : PlanRequest) : Prop :=
  ∃ isCount limit, p.Exceeds r isCount limit ∧ limit.toNumber ≠ .nan ∧ (isCount = true ∨ limit.truthy = true)

/-- Where the plan may have such plans at all, no count is `0` in a request within the limits, whose
name is not inherited, and a request beyond them has such a count or name or is beyond a limit that
is noticed. -/
def GrantsAgree (p : Plan) (name : String) (r : PlanRequest) : Prop :=
  p.MayCreate r →
    (p.Grants r → name ∉ inheritedNames ∧ r.maxUserCount ≠ 0 ∧ r.maxDomainCount ≠ 0) ∧
    (¬p.Grants r → name ∈ inheritedNames ∨ r.maxUserCount = 0 ∨ r.maxDomainCount = 0 ∨ p.Notices r)

theorem grants_iff : p.Grants r ↔ p.MayCreate r ∧ ∀ isCount limit, ¬p.Exceeds r isCount limit := by
  constructor
  · intro h
    refine ⟨h.create, fun isCount limit he => ?_⟩
    cases he with
    | users hle => exact Bool.false_ne_true (hle.symm.trans h.users)
    | domains hle => exact Bool.false_ne_true (hle.symm.trans h.domains)
    | maximum hi hne hlimit hle =>
      rcases h.maximums _ _ hi hne with hno | hin
      · exact hlimit hno
      · exact Bool.false_ne_true (hle.symm.trans hin)
  · intro ⟨hcreate, hnone⟩
    refine ⟨hcreate, ?_, ?_, fun o i hi hne => ?_⟩
    · apply Bool.of_not_eq_false
      exact fun hle => hnone _ _ (.users hle)
    · apply Bool.of_not_eq_false
      exact fun hle => hnone _ _ (.domains hle)
    · by_cases hno : NoLimit (prop p.planMaximums o)
      · exact .inl hno
      · exact .inr (Bool.of_not_eq_false fun hle => hnone _ _ (.maximum hi hne hno hle))

/-- Behind a limit that is no number there is nothing. -/
theorem lt_int_iff {limit : JsVal} {i : Int} : limit.lt (.num (.int i)) = true ↔
    limit.toNumber ≠ .nan ∧ (JsVal.num (.int i)).le limit = false := by
  have hlt : limit.lt (.num (.int i)) = limit.toNumber.lt (.int i) := by cases limit <;> rfl
  have hle : (JsVal.num (.int i)).le limit = (JsNum.int i).le limit.toNumber := by cases limit <;> rfl
  rw [hlt, hle]
  cases limit.toNumber with
  | int n => simp [JsNum.lt, JsNum.le]
  | nan => simp [JsNum.lt]
  | posInf => simp [JsNum.lt, JsNum.le]
  | negInf => simp [JsNum.lt, JsNum.le]

theorem strictEq_int {v : JsVal} {i : Int} : JsVal.strictEq v (.num (.int i)) = true ↔ v = .num (.int i) := by
  cases v with
  | num n => cases n <;> simp [JsVal.strictEq]
  | _ => simp [JsVal.strictEq]

theorem strictEq_defaultMaximum {v : JsVal} : JsVal.strictEq v defaultMaximum = true ↔ v = defaultMaximum :=
  strictEq_int

theorem exceeded_iff {o : String} {i : Int} : p.exceeded o (.num (.int i)) ≠ none ↔
    i ≠ -1 ∧ ¬NoLimit (prop p.planMaximums o) ∧ (prop p.planMaximums o).toNumber ≠ .nan ∧
      (prop p.planMaximums o).truthy = true ∧ (JsVal.num (.int i)).le (prop p.planMaximums o) = false := by
  have hsame : JsVal.strictEq (.num (.int i)) defaultMaximum = false ↔ i ≠ -1 := by
    rw [← Bool.not_eq_true, strictEq_defaultMaximum, defaultMaximum, JsVal.num.injEq, JsNum.int.injEq]
  have hown : JsVal.strictEq (prop p.planMaximums o) defaultMaximum = false ↔
      prop p.planMaximums o ≠ defaultMaximum := by
    rw [← Bool.not_eq_true, strictEq_defaultMaximum]
  have hundef (h : (prop p.planMaximums o).truthy = true) : prop p.planMaximums o ≠ .undefined := by
    intro he
    rw [he] at h
    cases h
  have hcode : p.exceeded o (.num (.int i)) ≠ none ↔
      (prop p.planMaximums o).truthy = true ∧ beyond (.num (.int i)) (prop p.planMaximums o) = true := by
    rw [exceeded, ← Bool.and_eq_true]
    split
    · rename_i h
      exact iff_of_true (fun he => by cases he) h
    · rename_i h
      exact iff_of_false (fun hne => hne rfl) h
  rw [hcode, beyond, Bool.and_eq_true, Bool.and_eq_true, lt_int_iff, Bool.not_eq_true', hsame, Bool.not_eq_true', hown]
  constructor
  · intro ⟨htruthy, ⟨⟨hnum, hle⟩, hne⟩, hlimit⟩
    exact ⟨hne, fun hno => hno.elim (hundef htruthy) hlimit, hnum, htruthy, hle⟩
  · intro ⟨hne, hno, hnum, htruthy, hle⟩
    exact ⟨htruthy, ⟨⟨hnum, hle⟩, hne⟩, fun he => hno (.inr he)⟩

theorem notices_iff : p.Notices r ↔ p.maxUserCount.lt (.ofNat r.maxUserCount) = true ∨
    p.maxDomainCount.lt (.ofNat r.maxDomainCount) = true ∨
      ∃ o i, r.planMaximums.get? o = some i ∧ p.exceeded o (.num (.int i)) ≠ none := by
  simp only [JsVal.ofNat, lt_int_iff, exceeded_iff]
  constructor
  · rintro ⟨isCount, limit, he, hnum, hseen⟩
    cases he with
    | users hle => exact .inl ⟨hnum, hle⟩
    | domains hle => exact .inr (.inl ⟨hnum, hle⟩)
    | maximum hi hne hlimit hle =>
      refine .inr (.inr ⟨_, _, hi, hne, hlimit, hnum, hseen.resolve_left ?_, hle⟩)
      exact Bool.false_ne_true
  · intro h
    rcases h with ⟨hnum, hle⟩ | ⟨hnum, hle⟩ | ⟨o, i, hi, hne, hlimit, hnum, htruthy, hle⟩
    · exact ⟨_, _, .users hle, hnum, .inl rfl⟩
    · exact ⟨_, _, .domains hle, hnum, .inl rfl⟩
    · exact ⟨_, _, .maximum hi hne hlimit hle, hnum, .inr htruthy⟩

/-- The check finds the limits that are noticed, and no others. -/
theorem checkAddPlan_iff (h : r.AskedBy opts) :
    p.checkAddPlan (limitsOf opts) = .ok none ↔ p.MayCreate r ∧ ¬p.Notices r := by
  have hcreate : prop opts "canCreateUser" = .bool r.canCreateUser := by rw [prop, h.canCreateUser, Option.getD_some]
  have husers : prop opts "maxUserCount" = .ofNat r.maxUserCount := by rw [prop, h.maxUserCount, Option.getD_some]
  have hdomains : prop opts "maxDomainCount" = .ofNat r.maxDomainCount := by
    rw [prop, h.maxDomainCount, Option.getD_some]
  have hmax : (prop opts "planMaximums").toObj = r.planMaximums.mapVals fun _ i => .num (.int i) := by
    rw [prop, h.planMaximums, Option.getD_some, JsVal.toObj, Dict.ofList_entries]
  have htruthy : (prop opts "planMaximums").truthy = true := by
    rw [prop, h.planMaximums, Option.getD_some, JsVal.truthy]
  have hfind : (prop opts "planMaximums").toObj.entries.findSome? (fun e => p.exceeded e.1 e.2) = none ↔
      ∀ o i, r.planMaximums.get? o = some i → p.exceeded o (.num (.int i)) = none := by
    rw [hmax, List.findSome?_eq_none_iff]
    constructor
    · intro hall o i hi
      apply hall (o, .num (.int i))
      apply Dict.get?_eq_some.1
      rw [Dict.get?_mapVals, hi, Option.map_some]
    · intro hall e he
      obtain ⟨k, v⟩ := e
      have hget := Dict.get?_eq_some.2 he
      rw [Dict.get?_mapVals] at hget
      obtain ⟨i, hi, rfl⟩ := Option.map_eq_some_iff.1 hget
      exact hall k i hi
  unfold checkAddPlan limitsOf MayCreate
  dsimp only
  rw [hcreate, husers, hdomains, htruthy, notices_iff]
  by_cases hplan : p.canCreatePlan.truthy = true
  · rw [if_neg (by rw [hplan]; exact Bool.false_ne_true), if_neg (show ¬(!true) = true from Bool.false_ne_true)]
    by_cases huser : r.canCreateUser = true → p.canCreateUser.truthy = true
    · have hgranted : ¬((JsVal.bool r.canCreateUser).truthy && !p.canCreateUser.truthy) = true := by
        rw [Bool.and_eq_true, Bool.not_eq_true', JsVal.truthy]
        exact fun hboth => Bool.false_ne_true (hboth.2.symm.trans (huser hboth.1))
      rw [if_neg hgranted]
      by_cases hu : p.maxUserCount.lt (.ofNat r.maxUserCount) = true
      · rw [if_pos hu]
        exact iff_of_false (fun he => by cases he) fun hall => hall.2 (.inl hu)
      · rw [if_neg hu]
        by_cases hd : p.maxDomainCount.lt (.ofNat r.maxDomainCount) = true
        · rw [if_pos hd]
          exact iff_of_false (fun he => by cases he) fun hall => hall.2 (.inr (.inl hd))
        · rw [if_neg hd, Except.ok.injEq, hfind]
          constructor
          · intro hall
            refine ⟨⟨hplan, huser⟩, fun hseen => ?_⟩
            obtain ⟨o, i, hi, hover⟩ := (hseen.resolve_left hu).resolve_left hd
            exact hover (hall o i hi)
          · intro hall o i hi
            by_contra hover
            exact hall.2 (.inr (.inr ⟨o, i, hi, hover⟩))
    · have hrefused : ((JsVal.bool r.canCreateUser).truthy && !p.canCreateUser.truthy) = true := by
        rw [Classical.not_imp, Bool.not_eq_true] at huser
        rw [JsVal.truthy, huser.1, huser.2, Bool.not_false, Bool.and_self]
      rw [if_pos hrefused]
      exact iff_of_false (fun he => by cases he) fun hall => huser hall.1.2
  · rw [if_pos (by rw [Bool.of_not_eq_true hplan]; rfl)]
    exact iff_of_false (fun he => by cases he) fun hall => hplan hall.1.1

theorem checkSet_bool {k : String} {b : Bool} (h : opts.get? k = some (.bool b)) :
    checkSet k opts true = .ok (.bool b) := by
  rw [checkSet, prop, h]
  cases b <;> rfl

theorem checkSet_count {k : String} {n : Nat} (h : opts.get? k = some (.ofNat n)) :
    checkSet k opts false = if n = 0 then .error (.thrown (k ++ " is required")) else .ok (.ofNat n) := by
  rw [checkSet, prop, h]
  cases n <;> rfl

/-- The record is made unless a count is `0`. -/
theorem new_ok_iff {name owner : String} (h : r.AskedBy opts) :
    (∃ plan, Plan.new name owner opts = .ok plan) ↔ r.maxUserCount ≠ 0 ∧ r.maxDomainCount ≠ 0 := by
  have hmax : checkSet "planMaximums" opts false =
      .ok (.obj (r.planMaximums.mapVals fun _ i => .num (.int i)).entries) := by
    rw [checkSet, prop, h.planMaximums]
    rfl
  unfold Plan.new
  rw [checkSet_count h.maxDomainCount, checkSet_count h.maxUserCount, checkSet_bool h.canCreatePlan,
    checkSet_bool h.canCreateUser, hmax]
  by_cases hd : r.maxDomainCount = 0
  · rw [if_pos hd]
    exact iff_of_false (fun he => by cases he.choose_spec) fun hall => hall.2 hd
  · rw [if_neg hd]
    by_cases hu : r.maxUserCount = 0
    · rw [if_pos hu]
      exact iff_of_false (fun he => by cases he.choose_spec) fun hall => hall.1 hu
    · rw [if_neg hu]
      exact iff_of_true ⟨_, rfl⟩ ⟨hu, hd⟩

end Plan

namespace Store
variable {s : Store} {u n : String} {U : User} {P : Plan} {r : PlanRequest} {opts : Obj}

theorem addPlan_ok_iff (hU : s.users.get? u = some U) (hP : s.plans.get? U.plan = some P) (hn : n ∉ s.plans)
    (h : r.AskedBy opts) : (s.addPlan (some u) n opts).2 = .ok none ↔
      (P.MayCreate r ∧ ¬P.Notices r) ∧ n ∉ inheritedNames ∧ r.maxUserCount ≠ 0 ∧ r.maxDomainCount ≠ 0 := by
  have hcheck := @Plan.checkAddPlan_iff P r opts h
  have hnew := @Plan.new_ok_iff r opts n U.name h
  rw [← hcheck, ← hnew]
  unfold addPlan
  by_cases hinherited : n ∈ inheritedNames
  · rw [if_pos (.inr hinherited)]
    exact iff_of_false (fun he => by cases he) fun he => he.2.1 hinherited
  rw [if_neg (not_or.2 ⟨hn, hinherited⟩)]
  dsimp only
  rw [hU]
  dsimp only
  rw [hP]
  dsimp only [guarded]
  rcases P.checkAddPlan (limitsOf opts) with f | (_ | res)
  · exact iff_of_false (fun he => by cases he) fun he => by cases he.1
  · dsimp only [storeNewPlan]
    rcases Plan.new n U.name opts with f | plan
    · exact iff_of_false (fun he => by cases he) fun he => by cases he.2.2.choose_spec
    · exact iff_of_true rfl ⟨rfl, hinherited, plan, rfl⟩
  · exact iff_of_false (fun he => by cases he) fun he => by cases he.1

theorem addPlan_refused (h : (s.addPlan (some u) n opts).2 ≠ .ok none) : (s.addPlan (some u) n opts).1 = s := by
  rcases addPlan_cases (Prod.eta (s.addPlan (some u) n opts)).symm with hs | ⟨_, hr, _⟩
  · exact hs.1
  · exact absurd hr h

/-- A plan is added just when the owner's plan grants it, and a refusal changes nothing. -/
theorem addPlan_grants_iff (hU : s.users.get? u = some U) (hP : s.plans.get? U.plan = some P) (hn : n ∉ s.plans)
    (h : r.AskedBy opts) :
    (((s.addPlan (some u) n opts).2 = .ok none ↔ P.Grants r) ∧
      ((s.addPlan (some u) n opts).2 ≠ .ok none → (s.addPlan (some u) n opts).1 = s)) ↔ P.GrantsAgree n r := by
  rw [and_iff_left addPlan_refused, addPlan_ok_iff hU hP hn h]
  constructor
  · intro hiff hcreate
    constructor
    · intro hin
      exact (hiff.2 hin).2
    · intro hbeyond
      by_contra hnot
      rw [not_or, not_or, not_or] at hnot
      obtain ⟨hname, hu, hd, hseen⟩ := hnot
      exact hbeyond (hiff.1 ⟨⟨hcreate, hseen⟩, hname, hu, hd⟩)
  · intro hagree
    constructor
    · rintro ⟨⟨hcreate, hseen⟩, hname, hu, hd⟩
      by_contra hbeyond
      rcases (hagree hcreate).2 hbeyond with h0 | h0 | h0 | h0
      · exact hname h0
      · exact hu h0
      · exact hd h0
      · exact hseen h0
    · intro hin
      refine ⟨⟨hin.create, fun hseen => ?_⟩, (hagree hin.create).1 hin⟩
      obtain ⟨isCount, limit, he, _⟩ := hseen
      exact (Plan.grants_iff.1 hin).2 _ _ he

/-- Five users and five domains, and no plans of its users. -/
def goldRequest : PlanRequest :=
  { maxUserCount := 5, maxDomainCount := 5, canCreatePlan := true, canCreateUser := true
    planMaximums := Dict.empty.set "plan_max_plans" 0 }

/-- A plan that holds so many users and no plans. -/
def silverRequest (maxUserCount : Nat) : PlanRequest :=
  { maxUserCount, maxDomainCount := 2, canCreatePlan := false, canCreateUser := true
    planMaximums := Dict.empty.set "plan_max_plans" 0 }

def grantCalls : List Call :=
  [.addUser unlimitedPlanName "ann" .empty, .addPlan (some "ann") "gold" goldRequest.opts, .addUser "gold" "bob" .empty]

theorem addPlan_grants_sample : ∃ P, (installed.run grantCalls).plans.get? "gold" = some P ∧
    ((installed.run grantCalls).addPlan (some "bob") "silver" (silverRequest 3).opts).2 = .ok none ∧
    P.Grants (silverRequest 3) := by
  obtain ⟨U, hU, hplan⟩ := Option.map_eq_some_iff.1
    (show ((installed.run grantCalls).users.get? "bob").map User.plan = some "gold" by decide +kernel)
  obtain ⟨P, hP, hlimits⟩ := Option.map_eq_some_iff.1
    (show ((installed.run grantCalls).plans.get? "gold").map (fun P =>
        ((P.canCreatePlan.truthy, P.canCreateUser.truthy), (JsVal.ofNat 3).le P.maxUserCount,
          (JsVal.ofNat 2).le P.maxDomainCount, (JsVal.num (.int 0)).le (prop P.planMaximums "plan_max_plans"))) =
        some ((true, true), true, true, true) by decide +kernel)
  obtain ⟨hcreate, hcounts⟩ := Prod.mk.inj hlimits
  obtain ⟨husers, hrest⟩ := Prod.mk.inj hcounts
  obtain ⟨hdomains, hmax⟩ := Prod.mk.inj hrest
  obtain ⟨hplans, hgrant⟩ := Prod.mk.inj hcreate
  have hin : P.Grants (silverRequest 3) := by
    refine ⟨⟨hplans, fun _ => hgrant⟩, husers, hdomains, fun o i hi _ => ?_⟩
    by_cases ho : o = "plan_max_plans"
    · subst ho
      cases (hi : some 0 = some i)
      exact .inr hmax
    · rw [silverRequest, Dict.get?_set_ne _ _ ho] at hi
      cases hi
  have hiff := addPlan_grants_iff hU (hplan ▸ hP) (show "silver" ∉ (installed.run grantCalls).plans by decide +kernel)
    (silverRequest 3).askedBy_opts
  have hok := (hiff.2 fun _ => ⟨fun _ => ⟨by decide, by decide, by decide⟩, fun hout => absurd hin hout⟩).1.2 hin
  exact ⟨P, hP, hok, hin⟩

/-- No users is within the limits of any plan, and the record is refused after the check. -/
theorem no_users_refused : ¬∀ (s : Store) (u n : String) (U : User) (P : Plan) (r : PlanRequest) (opts : Obj),
    Consistent s → s.users.get? u = some U → s.plans.get? U.plan = some P → n ∉ s.plans → r.AskedBy opts →
      ((s.addPlan (some u) n opts).2 = .ok none ↔ P.Grants r) ∧
        ((s.addPlan (some u) n opts).2 ≠ .ok none → (s.addPlan (some u) n opts).1 = s) := by
  intro h
  obtain ⟨U, hU, hplan⟩ := Option.map_eq_some_iff.1
    (show ((installed.run [.addUser unlimitedPlanName "ann" .empty]).users.get? "ann").map User.plan =
      some unlimitedPlanName by decide +kernel)
  obtain ⟨P, hP, hlimits⟩ := Option.map_eq_some_iff.1
    (show ((installed.run [.addUser unlimitedPlanName "ann" .empty]).plans.get? unlimitedPlanName).map (fun P =>
        ((P.canCreatePlan.truthy, P.canCreateUser.truthy), (JsVal.ofNat 0).le P.maxUserCount,
          (JsVal.ofNat 2).le P.maxDomainCount, P.planMaximums.keys)) =
        some ((true, true), true, true, []) by decide +kernel)
  obtain ⟨hcreate, hcounts⟩ := Prod.mk.inj hlimits
  obtain ⟨husers, hrest⟩ := Prod.mk.inj hcounts
  obtain ⟨hdomains, hmax⟩ := Prod.mk.inj hrest
  obtain ⟨hplans, hgrant⟩ := Prod.mk.inj hcreate
  have hin : P.Grants (silverRequest 0) := by
    refine ⟨⟨hplans, fun _ => hgrant⟩, husers, hdomains, fun o _ _ _ => .inl (.inl ?_)⟩
    have hno : o ∉ P.planMaximums := fun ho => by
      rw [← Dict.mem_keys, hmax] at ho
      exact absurd ho List.not_mem_nil
    rw [prop, Dict.get?_eq_none.2 hno, Option.getD_none]
  have hconsistent : Consistent (installed.run [.addUser unlimitedPlanName "ann" .empty]) :=
    consistent_of_adds (Runs.Reached.start.run ⟨⟨by decide, by decide, by decide⟩, trivial⟩)
  have hok := (h _ "ann" "silver" U P (silverRequest 0) (silverRequest 0).opts hconsistent hU (hplan ▸ hP)
    (by decide +kernel) (silverRequest 0).askedBy_opts).1.2 hin
  have hres : ((installed.run [.addUser unlimitedPlanName "ann" .empty]).addPlan (some "ann") "silver"
      (silverRequest 0).opts).2 = .error (.thrown "maxUserCount is required") := by decide +kernel
  rw [hres] at hok
  cases hok

end Store
end JXPanel

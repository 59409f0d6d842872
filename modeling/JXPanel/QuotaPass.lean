import JXPanel.Homes
import JXPanel.PlanOrder
import JXPanel.PlanUpdates

namespace JXPanel
set_option autoImplicit true

/-- The size of a directory in megabytes. A text that is no number has none, and no sum with it has. -/
abbrev Size := Option ℚ

def Size.plus (a b : Size) : Size := a.bind fun a => b.map fun b => a + b

/-- `size > max_disk` -/
def Size.greater (size : Size) (max_disk : JsVal) : Bool :=
  match size, max_disk.toNumber with
  | some size, .int n => decide (n < size)
  | some _, .negInf => true
  | _, _ => false

/-- `size < max_disk` -/
def Size.less (size : Size) (max_disk : JsVal) : Bool :=
  match size, max_disk.toNumber with
  | some size, .int n => decide (size < n)
  | some _, .posInf => true
  | _, _ => false

/-- `suspended && suspended.indexOf(reason) !== -1`. In a text a part of it is looked for. -/
def suspendedFor (suspended : JsVal) (reason : String) : Js Bool :=
  if !suspended.truthy then .ok false
  else
    match suspended with
    | .str t => .ok (decide (reason.toList <:+: t.toList))
    | .arr l => .ok (l.any (JsVal.strictEq (.str reason)))
    | _ => .error .typeError

def planDiskSpace : String := "plan_disk_space"

/-- What the pass asks for: the folder of the homes and how large directories are. -/
structure Disk where
  apps_folder : List Char
  getDiskUsage : List Char → Size

/-- What a pass leaves: the store, whether it is written, and how the pass ends. -/
structure QuotaRun where
  store : Store
  written : Bool
  outcome : Js Unit

namespace Store
variable (s : Store) (disk : Disk)

/-- The size of one home is added. -/
def addHome (total : Size) (user_name : String) : Js Size :=
  match s.users.get? user_name with
  | none => .error (.thrown "wasn't exist in database")
  | some pl => do
    let path ← s.getUserPath disk.apps_folder pl.plan user_name
    return total.plus (disk.getDiskUsage path)

def getUserPathSize (user_name : String) : Js Size := do
  let users ← s.getUsersByUserName user_name 10000000
  let total ← s.addHome disk (some 0) user_name
  users.foldlM (s.addHome disk) total

end Store

/-- The limit of the plan is exceeded. -/
def overDisk (size : Size) (max_disk : JsVal) : Bool :=
  size.greater max_disk && !JsVal.strictEq max_disk defaultMaximum

def underDisk (size : Size) (max_disk : JsVal) : Bool :=
  size.less max_disk || JsVal.strictEq max_disk defaultMaximum

namespace Store
variable (disk : Disk)

/-- The inner loop of `check_quotas`. -/
def checkUserQuota (max_disk : JsVal) (st : Store × Bool) (i : String) : (Store × Bool) × Js Unit :=
  match st.1.users.get? i with
  | none => (st, .error .typeError)
  | some user =>
    match suspendedFor user.suspended planDiskSpace, st.1.getUserPathSize disk i with
    | .error f, _ => (st, .error f)
    | .ok _, .error f => (st, .error f)
    | .ok isUserSuspended, .ok size =>
      if overDisk size max_disk && !isUserSuspended then
        let r := st.1.suspendUser i planDiskSpace
        ((r.1, true), r.2)
      else if underDisk size max_disk && isUserSuspended then
        let r := st.1.unSuspendUser i (some planDiskSpace)
        ((r.1, true), r.2)
      else (st, .ok ())

/-- The outer loop of `check_quotas`. -/
def checkPlanQuota (st : Store × Bool) (o : String) : (Store × Bool) × Js Unit :=
  match st.1.plans.get? o with
  | none => (st, .error .typeError)
  | some plan =>
    match suspendedFor plan.suspended planDiskSpace with
    | .error f => (st, .error f)
    | .ok isSuspended =>
      let max_disk := prop plan.planMaximums planDiskSpace
      if !isSuspended && max_disk.truthy then
        Collect.runAll (checkUserQuota disk max_disk) plan.users.keys st
      else (st, .ok ())

/-- `check_quotas` with the store that has been read. It is written if a record has been updated. -/
def checkQuotas (s : Store) : QuotaRun :=
  match s.plans.get? unlimitedPlanName with
  | none => { store := s, written := false, outcome := .ok () }
  | some _ =>
    match s.getPlansByPlanName unlimitedPlanName 10000000 with
    | .error f => { store := s, written := false, outcome := .error f }
    | .ok plans =>
      match Collect.runAll (checkPlanQuota disk) plans (s, false) with
      | (st, .error f) => { store := st.1, written := false, outcome := .error f }
      | (st, .ok ()) => { store := st.1, written := st.2, outcome := .ok () }

end Store

section Values
variable {v v' : JsVal} {o : String}

theorem suspendedFor_falsy (ht : v.truthy = false) (o : String) : suspendedFor v o = .ok false := by
  rw [suspendedFor.eq_def, ht]
  rfl

theorem suspendedFor_arr (l : List JsVal) (o : String) :
    suspendedFor (.arr l) o = .ok (l.any (JsVal.strictEq (.str o))) := rfl

theorem suspendedFor_total (h : IsReasons v) (o : String) : ∃ b, suspendedFor v o = .ok b := by
  cases ht : v.truthy with
  | false => exact ⟨false, suspendedFor_falsy ht o⟩
  | true =>
    obtain ⟨l, hl, -⟩ := h ht
    rw [suspendedFor.eq_def, ht]
    cases v with
    | str t => exact ⟨_, rfl⟩
    | arr l => exact ⟨_, rfl⟩
    | _ => cases hl

theorem suspendedFor_add (h : addReason v o = .ok v') : suspendedFor v' o = .ok true := by
  obtain ⟨l, -, h⟩ := Collect.bind_ok.1 h
  rw [← Except.ok.inj h, suspendedFor_arr]
  refine congrArg Except.ok (any_strictEq.2 ?_)
  split
  · rename_i hm
    exact any_strictEq.1 hm
  · exact List.mem_append_right l (List.mem_singleton_self _)

theorem suspendedFor_remove (hv : IsReasons v) (ho : o ≠ "") (h : removeReason v (some o) = .ok v') :
    suspendedFor v' o = .ok false := by
  rw [removeReason, if_neg ho] at h
  cases ht : v.truthy with
  | false =>
    rw [ht] at h
    rw [← Except.ok.inj h]
    exact suspendedFor_falsy ht o
  | true =>
    rw [ht] at h
    obtain ⟨l, hl, hnodup⟩ := hv ht
    obtain ⟨l', hl', h⟩ := Collect.bind_ok.1 h
    cases hl.symm.trans hl'
    have hgone : JsVal.str o ∉ dropReason o l := fun hm => ((mem_dropReason hnodup).1 hm).2 rfl
    rw [← Except.ok.inj h]
    split
    · rfl
    · rw [suspendedFor_arr]
      exact congrArg Except.ok (Bool.eq_false_iff.2 fun hm => hgone (any_strictEq.1 hm))

end Values

namespace Store

def userMark (s : Store) (u : String) : Option Bool :=
  (s.users.get? u).bind fun U => (suspendedFor U.suspended planDiskSpace).toOption

def planMark (s : Store) (p : String) : Option Bool :=
  (s.plans.get? p).bind fun P => (suspendedFor P.suspended planDiskSpace).toOption

/-- A record is suspended or unsuspended by the pass. -/
def setPlanMark (b : Bool) (s : Store) (p : String) : Store × Js Unit :=
  if b then s.suspendPlan p planDiskSpace else s.unSuspendPlan p (some planDiskSpace)

def setUserMark (b : Bool) (s : Store) (u : String) : Store × Js Unit :=
  if b then s.suspendUser u planDiskSpace else s.unSuspendUser u (some planDiskSpace)

variable {s s' : Store}

theorem planMark_setPlan {P : Plan} {v : JsVal} {b : Bool} (hv : suspendedFor v planDiskSpace = .ok b) (p q : String) :
    (s.setPlan p { P with suspended := v }).planMark q = if q = p then some b else s.planMark q := by
  rw [planMark, Store.setPlan, Dict.get?_set]
  split
  · rw [Option.bind_some, hv]
    rfl
  · rfl

theorem userMark_setUser {U : User} {v : JsVal} {b : Bool} (hv : suspendedFor v planDiskSpace = .ok b) (u w : String) :
    (s.setUser u { U with suspended := v }).userMark w = if w = u then some b else s.userMark w := by
  rw [userMark, Store.setUser, Dict.get?_set]
  split
  · rw [Option.bind_some, hv]
    rfl
  · rfl

theorem Orderly.setPlanMark (h : Orderly s) (hp : p ∈ s.plans) (b : Bool) :
    ∃ s', s.setPlanMark b p = (s', .ok ()) ∧ Orderly s' ∧ Resuspended s s' ∧ s'.users = s.users ∧
      ∀ q, s'.planMark q = if q = p then some b else s.planMark q := by
  obtain ⟨P, hP⟩ := Dict.mem_iff.1 hp
  cases b with
  | true =>
    obtain ⟨s', hrun, h', husers, -⟩ := h.suspendPlan hp planDiskSpace
    have hres := suspendPlan_resuspended s p planDiskSpace
    rw [hrun] at hres
    obtain ⟨v, hv, -⟩ := addReason_spec (h.planReasons p P hP) planDiskSpace
    have hs' : s' = s.setPlan p { P with suspended := v } := by
      have hfst := congrArg Prod.fst hrun
      rw [Store.suspendPlan, hP] at hfst
      dsimp only at hfst
      rw [hv] at hfst
      exact hfst.symm
    refine ⟨s', hrun, h', hres, husers, fun q => ?_⟩
    rw [hs', planMark_setPlan (suspendedFor_add hv)]
  | false =>
    obtain ⟨s', hrun, h', husers, -⟩ := h.unSuspendPlan hp planDiskSpace
    have hres := unSuspendPlan_resuspended s p (some planDiskSpace)
    rw [hrun] at hres
    obtain ⟨v, hv, -⟩ := removeReason_spec (h.planReasons p P hP) planDiskSpace
    have hs' : s' = s.setPlan p { P with suspended := v } := by
      have hfst := congrArg Prod.fst hrun
      rw [Store.unSuspendPlan, hP] at hfst
      dsimp only at hfst
      rw [hv] at hfst
      exact hfst.symm
    refine ⟨s', hrun, h', hres, husers, fun q => ?_⟩
    rw [hs', planMark_setPlan (suspendedFor_remove (h.planReasons p P hP) (by decide) hv)]

theorem Orderly.setPlanMarks (h : Orderly s) {l : List String} (hl : ∀ p ∈ l, p ∈ s.plans) (b : Bool) :
    ∃ s', Collect.runAll (Store.setPlanMark b) l s = (s', .ok ()) ∧ Orderly s' ∧ Resuspended s s' ∧ s'.users = s.users ∧
      ∀ q, s'.planMark q = if q ∈ l then some b else s.planMark q := by
  induction l generalizing s with
  | nil => exact ⟨s, rfl, h, .refl s, rfl, fun q => (if_neg List.not_mem_nil).symm⟩
  | cons p l ih =>
    obtain ⟨s₁, hone, h₁, hres₁, hu₁, hmark₁⟩ := h.setPlanMark (hl p List.mem_cons_self) b
    obtain ⟨s', hrun, h', hres', hu', hmark'⟩ := ih h₁ fun q hq =>
      (mem_plans_of_resuspended hres₁).2 (hl q (List.mem_cons_of_mem p hq))
    refine ⟨s', ?_, h', hres₁.trans hres', hu'.trans hu₁, fun q => ?_⟩
    · rw [Collect.runAll, hone]
      exact hrun
    · rw [hmark', hmark₁]
      by_cases hq : q ∈ l
      · rw [if_pos hq, if_pos (List.mem_cons_of_mem p hq)]
      · rw [if_neg hq]
        by_cases hqp : q = p
        · rw [if_pos hqp, if_pos (hqp ▸ List.mem_cons_self)]
        · rw [if_neg hqp, if_neg (by rw [List.mem_cons, not_or]; exact ⟨hqp, hq⟩)]

/-- A mark on a user goes to the plans of his own. -/
theorem Orderly.setUserMark (h : Orderly s) (hu : u ∈ s.users) (b : Bool) :
    ∃ s', s.setUserMark b u = (s', .ok ()) ∧ Orderly s' ∧ Resuspended s s' ∧
      (∀ w, s'.userMark w = if w = u then some b else s.userMark w) ∧
      ∀ q, s'.planMark q = if q ∈ s.ownPlans u then some b else s.planMark q := by
  obtain ⟨U, hU⟩ := Dict.mem_iff.1 hu
  obtain rfl : U.name = u := h.userName u U hU
  have hmarks : ∀ v, suspendedFor v planDiskSpace = .ok b → IsReasons v →
      Collect.runAll (Store.setPlanMark b) U.subPlans.keys (s.setUser U.name { U with suspended := v }) =
        s.setUserMark b U.name →
      ∃ s', s.setUserMark b U.name = (s', .ok ()) ∧ Orderly s' ∧ Resuspended s s' ∧
        (∀ w, s'.userMark w = if w = U.name then some b else s.userMark w) ∧
        ∀ q, s'.planMark q = if q ∈ s.ownPlans U.name then some b else s.planMark q := by
    intro v hv hset hwhole
    have hres₁ : Resuspended s (s.setUser U.name { U with suspended := v }) := .setUser hU rfl
    obtain ⟨s', hrun, h', hres', husers, hplans⟩ := (h.setUser hU hset).setPlanMarks (h.own_mem hU) b
    refine ⟨s', hwhole ▸ hrun, h', hres₁.trans hres', fun w => ?_, fun q => ?_⟩
    · rw [userMark, husers, ← userMark, userMark_setUser hv]
    · rw [hplans, ownPlans_of_get? hU]
      rfl
  have hown : ∀ v, (s.setUser U.name { U with suspended := v }).getPlansByUserName 1 U.name = .ok U.subPlans.keys :=
    fun v => getPlansByUserName_one (U := { U with suspended := v }) (Dict.get?_set_self _ _ _)
  cases b with
  | true =>
    obtain ⟨v, hv, hset, -⟩ := addReason_spec (h.userReasons U.name U hU) planDiskSpace
    apply hmarks v (suspendedFor_add hv) hset
    have hcallback : (s.setUser U.name { U with suspended := v }).onSuspendUser U.name = .ok () := by
      rw [onSuspendUser, getDomainsByUserName, Store.setUser, Dict.get?_set_self]
      rfl
    rw [Store.setUserMark, if_pos rfl, Store.suspendUser, hU]
    dsimp only
    rw [hv]
    dsimp only
    rw [hcallback, hown]
    rfl
  | false =>
    obtain ⟨v, hv, hset, -⟩ := removeReason_spec (h.userReasons U.name U hU) planDiskSpace
    apply hmarks v (suspendedFor_remove (h.userReasons U.name U hU) (by decide) hv) hset
    rw [Store.setUserMark, if_neg Bool.false_ne_true, Store.unSuspendUser, hU]
    dsimp only
    rw [hv]
    dsimp only
    rw [hown]
    rfl

section Sizes
variable (h : Resuspended s s')
include h

theorem Resuspended.plan_cases (p : String) : (s.plans.get? p = none ∧ s'.plans.get? p = none) ∨
    ∃ P P', s.plans.get? p = some P ∧ s'.plans.get? p = some P' ∧ P'.owner = P.owner ∧ P'.users = P.users ∧
      P'.planMaximums = P.planMaximums := by
  have hcore := h.plan_core p
  cases hP : s.plans.get? p with
  | none =>
    rw [hP] at hcore
    exact .inl ⟨rfl, Option.map_eq_none_iff.1 hcore⟩
  | some P =>
    rw [hP] at hcore
    obtain ⟨P', hP', he⟩ := Option.map_eq_some_iff.1 hcore
    have howner : P'.core.owner = P.core.owner := congrArg Plan.owner he
    have husers : P'.core.users = P.core.users := congrArg Plan.users he
    have hmax : P'.core.planMaximums = P.core.planMaximums := congrArg Plan.planMaximums he
    exact .inr ⟨P, P', rfl, hP', howner, husers, hmax⟩

theorem Resuspended.user_cases (u : String) : (s.users.get? u = none ∧ s'.users.get? u = none) ∨
    ∃ U U', s.users.get? u = some U ∧ s'.users.get? u = some U' ∧ U'.plan = U.plan ∧ U'.subPlans = U.subPlans := by
  have hcore := h.user_core u
  cases hU : s.users.get? u with
  | none =>
    rw [hU] at hcore
    exact .inl ⟨rfl, Option.map_eq_none_iff.1 hcore⟩
  | some U =>
    rw [hU] at hcore
    obtain ⟨U', hU', he⟩ := Option.map_eq_some_iff.1 hcore
    have hplan : U'.core.plan = U.core.plan := congrArg User.plan he
    have hplans : U'.core.subPlans = U.core.subPlans := congrArg User.subPlans he
    exact .inr ⟨U, U', rfl, hU', hplan, hplans⟩

theorem Resuspended.getUsersByPlanName (n : Nat) (p : String) :
    s'.getUsersByPlanName n p = s.getUsersByPlanName n p := by
  induction n generalizing p with
  | zero =>
    rw [Store.getUsersByPlanName, Store.getUsersByPlanName]
    rcases h.plan_cases p with ⟨hP, hP'⟩ | ⟨P, P', hP, hP', -, husers, -⟩
    · rw [hP, hP']
    · rw [hP, hP']
      dsimp only
      rw [husers]
  | succ n ih =>
    rw [Store.getUsersByPlanName, Store.getUsersByPlanName]
    rcases h.plan_cases p with ⟨hP, hP'⟩ | ⟨P, P', hP, hP', -, husers, -⟩
    · rw [hP, hP']
    · rw [hP, hP']
      dsimp only
      rw [husers]
      apply Collect.concatM_congr
      intro o _
      rcases h.user_cases o with ⟨hU, hU'⟩ | ⟨U, U', hU, hU', -, hplans⟩
      · rw [hU, hU']
      · rw [hU, hU']
        dsimp only
        rw [hplans, Collect.concatM_congr fun i _ => ih i]

theorem Resuspended.getPlansByUserName (n : Nat) (u : String) :
    s'.getPlansByUserName n u = s.getPlansByUserName n u := by
  induction n generalizing u with
  | zero =>
    rw [Store.getPlansByUserName, Store.getPlansByUserName]
    rcases h.user_cases u with ⟨hU, hU'⟩ | ⟨U, U', hU, hU', -, hplans⟩
    · rw [hU, hU']
    · rw [hU, hU']
      dsimp only
      rw [hplans]
  | succ n ih =>
    rw [Store.getPlansByUserName, Store.getPlansByUserName]
    rcases h.user_cases u with ⟨hU, hU'⟩ | ⟨U, U', hU, hU', -, hplans⟩
    · rw [hU, hU']
    · rw [hU, hU']
      dsimp only
      rw [hplans]
      apply Collect.concatM_congr
      intro o _
      rcases h.plan_cases o with ⟨hP, hP'⟩ | ⟨P, P', hP, hP', -, husers, -⟩
      · rw [hP, hP']
      · rw [hP, hP']
        dsimp only
        rw [husers, Collect.concatM_congr fun i _ => ih i]

theorem Resuspended.getPlansByPlanName (p : String) (n : Nat) :
    s'.getPlansByPlanName p n = s.getPlansByPlanName p n := by
  rw [Store.getPlansByPlanName, Store.getPlansByPlanName, h.getUsersByPlanName]
  refine bind_congr fun users => ?_
  rw [Collect.concatM_congr fun u _ => h.getPlansByUserName n u]

theorem Resuspended.getParentPlanName (p : String) : s'.getParentPlanName p = s.getParentPlanName p := by
  rw [Store.getParentPlanName, Store.getParentPlanName]
  rcases h.plan_cases p with ⟨hP, hP'⟩ | ⟨P, P', hP, hP', howner, -, -⟩
  · rw [hP, hP']
  · rw [hP, hP']
    dsimp only
    rw [howner]
    rcases h.user_cases P.owner with ⟨hU, hU'⟩ | ⟨U, U', hU, hU', hplan, -⟩
    · rw [hU, hU']
    · rw [hU, hU']
      dsimp only
      rw [hplan]

theorem Resuspended.getUserPath (apps_folder : List Char) (p u : String) :
    s'.getUserPath apps_folder p u = s.getUserPath apps_folder p u := by
  have hplans : ∀ n p, s'.pathPlans n p = s.pathPlans n p := by
    intro n
    induction n with
    | zero => exact fun _ => rfl
    | succ n ih =>
      intro p
      rw [pathPlans, pathPlans, h.getParentPlanName]
      split
      · rfl
      · split
        · rfl
        · rw [ih]
  rw [Store.getUserPath, Store.getUserPath, h.fuel, hplans]

/-- How much a user's homes take does not depend on what is suspended. -/
theorem Resuspended.getUserPathSize (disk : Disk) (u : String) :
    s'.getUserPathSize disk u = s.getUserPathSize disk u := by
  have hhome : s'.addHome disk = s.addHome disk := by
    funext total w
    rw [addHome, addHome]
    rcases h.user_cases w with ⟨hU, hU'⟩ | ⟨U, U', hU, hU', hplan, -⟩
    · rw [hU, hU']
    · rw [hU, hU']
      dsimp only
      rw [hplan, h.getUserPath]
  have husers : s'.getUsersByUserName u 10000000 = s.getUsersByUserName u 10000000 := by
    rw [getUsersByUserName, getUsersByUserName]
    rcases h.user_cases u with ⟨hU, hU'⟩ | ⟨U, U', hU, hU', -, hplans⟩
    · rw [hU, hU']
    · rw [hU, hU']
      dsimp only
      rw [hplans, Collect.concatM_congr fun o _ => h.getUsersByPlanName 10000000 o]
  rw [Store.getUserPathSize, Store.getUserPathSize, husers, hhome]

end Sizes

/-- What the pass decides about a user, if anything. -/
def verdict (size : Size) (max_disk : JsVal) : Option Bool :=
  if overDisk size max_disk then some true
  else if underDisk size max_disk then some false
  else none

theorem not_under_of_over {size : Size} {max_disk : JsVal} (h : overDisk size max_disk = true) :
    underDisk size max_disk = false := by
  rw [overDisk, Bool.and_eq_true, Bool.not_eq_true'] at h
  obtain ⟨hgreater, hlimited⟩ := h
  rw [underDisk, hlimited, Bool.or_false]
  unfold Size.greater at hgreater
  unfold Size.less
  split at hgreater
  · rename_i q n hn
    rw [hn]
    exact decide_eq_false (not_lt.2 (of_decide_eq_true hgreater).le)
  · rename_i q hn
    rw [hn]
  · cases hgreater

theorem Orderly.userMark_some (h : Orderly s) {U : User} (hU : s.users.get? u = some U) :
    ∃ m, suspendedFor U.suspended planDiskSpace = .ok m ∧ s.userMark u = some m := by
  obtain ⟨m, hm⟩ := suspendedFor_total (h.userReasons u U hU) planDiskSpace
  refine ⟨m, hm, ?_⟩
  rw [userMark, hU, Option.bind_some, hm]
  rfl

theorem Orderly.planMark_some (h : Orderly s) {P : Plan} (hP : s.plans.get? p = some P) :
    ∃ m, suspendedFor P.suspended planDiskSpace = .ok m ∧ s.planMark p = some m := by
  obtain ⟨m, hm⟩ := suspendedFor_total (h.planReasons p P hP) planDiskSpace
  refine ⟨m, hm, ?_⟩
  rw [planMark, hP, Option.bind_some, hm]
  rfl

section User
variable (h : Orderly s) {disk : Disk} {size : Size} (hu : u ∈ s.users)
  (hsize : s.getUserPathSize disk u = .ok size) (max_disk : JsVal) (b : Bool)
include h hu hsize

/-- A step of the inner loop: a decision that is not the user's mark already becomes it. -/
theorem Orderly.checkUserQuota_eq : checkUserQuota disk max_disk (s, b) u =
    if verdict size max_disk = none ∨ verdict size max_disk = s.userMark u then ((s, b), .ok ())
    else
      (((s.setUserMark ((verdict size max_disk).getD false) u).1, true),
        (s.setUserMark ((verdict size max_disk).getD false) u).2) := by
  obtain ⟨U, hU⟩ := Dict.mem_iff.1 hu
  obtain ⟨m, hm, hmark⟩ := h.userMark_some hU
  rw [checkUserQuota.eq_def]
  dsimp only
  rw [hU]
  dsimp only
  rw [hm, hsize, hmark]
  dsimp only
  rw [verdict]
  cases hover : overDisk size max_disk with
  | true =>
    have hunder := not_under_of_over hover
    cases m with
    | true => simp [hunder]
    | false => simp [Store.setUserMark]
  | false =>
    cases hunder : underDisk size max_disk with
    | false => simp
    | true =>
      cases m with
      | true => simp [Store.setUserMark]
      | false => simp

theorem Orderly.checkUserQuota_quiet (hquiet : verdict size max_disk = none ∨ verdict size max_disk = s.userMark u) :
    checkUserQuota disk max_disk (s, b) u = ((s, b), .ok ()) := by
  rw [h.checkUserQuota_eq hu hsize, if_pos hquiet]

theorem Orderly.checkUserQuota_spec : ∃ s' b', checkUserQuota disk max_disk (s, b) u = ((s', b'), .ok ()) ∧
    Orderly s' ∧ Resuspended s s' ∧ (∀ w, w ≠ u → s'.userMark w = s.userMark w) ∧
    (∀ q, q ∉ s.ownPlans u → s'.planMark q = s.planMark q) ∧
    s'.userMark u = (verdict size max_disk).or (s.userMark u) ∧ (b' = false → s' = s ∧ b = false) := by
  rw [h.checkUserQuota_eq hu hsize]
  split
  · rename_i hquiet
    refine ⟨s, b, rfl, h, .refl s, fun _ _ => rfl, fun _ _ => rfl, ?_, fun hb => ⟨rfl, hb⟩⟩
    rcases hquiet with hnone | hsame
    · rw [hnone]
      rfl
    · rw [hsame, Option.or_self]
  · rename_i hloud
    rw [not_or] at hloud
    obtain ⟨v, hv⟩ := Option.ne_none_iff_exists'.1 hloud.1
    obtain ⟨s', hrun, h', hres, husers, hplans⟩ := h.setUserMark hu v
    rw [hv, Option.getD_some, hrun]
    refine ⟨s', true, rfl, h', hres, fun w hw => ?_, fun q hq => ?_, ?_, fun hb => by cases hb⟩
    · rw [husers, if_neg hw]
    · rw [hplans, if_neg hq]
    · rw [husers, if_pos rfl]
      rfl

end User

/-- The size that the pass compares. -/
def homeSize (s : Store) (disk : Disk) (u : String) : Size := (s.getUserPathSize disk u).toOption.getD none

def diskLimit (s : Store) (p : String) : JsVal :=
  ((s.plans.get? p).map fun P => prop P.planMaximums planDiskSpace).getD .undefined

/-- What the pass decides about a user of a plan, if anything. -/
def decision (s : Store) (disk : Disk) (p u : String) : Option Bool :=
  if s.planMark p = some true ∨ (s.diskLimit p).truthy = false then none
  else verdict (s.homeSize disk u) (s.diskLimit p)

theorem Climbs.getUserPath_total (hc : s.Climbs) (apps_folder : List Char) (p u : String) :
    ∃ path, s.getUserPath apps_folder p u = .ok path := by
  obtain ⟨arr, harr⟩ := pathPlans_ends (hc.ends p)
  exact ⟨_, Collect.bind_ok.2 ⟨arr, harr, rfl⟩⟩

/-- The homes of a user and of those below him are found. -/
theorem Climbs.getUserPathSize_total (hc : s.Climbs) (h : Integrity s) (disk : Disk) (hu : u ∈ s.users) :
    s.getUserPathSize disk u = .ok (s.homeSize disk u) := by
  have hone : ∀ w ∈ s.users, ∀ total, ∃ total', s.addHome disk total w = .ok total' := by
    intro w hw total
    obtain ⟨W, hW⟩ := Dict.mem_iff.1 hw
    obtain ⟨path, hpath⟩ := hc.getUserPath_total disk.apps_folder W.plan w
    rw [addHome, hW]
    exact ⟨_, Collect.bind_ok.2 ⟨path, hpath, rfl⟩⟩
  have hall : ∀ (l : List String) total, (∀ w ∈ l, w ∈ s.users) → ∃ total', l.foldlM (s.addHome disk) total = .ok total' := by
    intro l
    induction l with
    | nil => exact fun total _ => ⟨total, rfl⟩
    | cons w l ih =>
      intro total hl
      obtain ⟨total₁, h₁⟩ := hone w (hl w List.mem_cons_self) total
      obtain ⟨total', h'⟩ := ih total₁ fun v hv => hl v (List.mem_cons_of_mem w hv)
      exact ⟨total', by rw [List.foldlM_cons, h₁]; exact h'⟩
  obtain ⟨U, hU⟩ := Dict.mem_iff.1 hu
  have hseat : u ∈ s.seats U.plan := (h.seat u U.plan).1 (planOf_of_get? hU)
  obtain ⟨l, hl⟩ := h.linked.getUsersByUserName_total 10000000 hseat
  have hfound : ∀ w ∈ l, w ∈ s.users := by
    intro w hw
    obtain ⟨o, -, q, -, hq⟩ := (getUsersByUserName_mem hl).1 hw
    exact h.linked.user_mem hq
  obtain ⟨total, htotal⟩ := hone u hu (some 0)
  obtain ⟨size, hsize⟩ := hall l total hfound
  have hwhole : s.getUserPathSize disk u = .ok size := by
    rw [Store.getUserPathSize, hl, Collect.ok_bind, htotal]
    exact hsize
  rw [homeSize, hwhole]
  rfl

theorem Resuspended.climbs (h : Resuspended s s') (hc : s.Climbs) : s'.Climbs := by
  apply hc.of_sub
  intro p q hq
  rw [parentUp, h.ownerOf] at hq
  rw [parentUp]
  obtain ⟨o, ho, hplan⟩ := Option.bind_eq_some_iff.1 hq
  rw [h.planOf] at hplan
  exact Option.bind_eq_some_iff.2 ⟨o, ho, hplan⟩

theorem Resuspended.subs (h : Resuspended s s') (p : String) : s'.subs p = s.subs p := by
  rw [Store.subs, Store.subs, h.seats, funext h.ownPlans]

theorem Resuspended.homeSize (h : Resuspended s s') (disk : Disk) (u : String) :
    s'.homeSize disk u = s.homeSize disk u := by
  rw [Store.homeSize, Store.homeSize, h.getUserPathSize]

theorem Resuspended.diskLimit (h : Resuspended s s') (p : String) : s'.diskLimit p = s.diskLimit p := by
  rw [Store.diskLimit, Store.diskLimit]
  rcases h.plan_cases p with ⟨hP, hP'⟩ | ⟨P, P', hP, hP', -, -, hmax⟩
  · rw [hP, hP']
  · rw [hP, hP', Option.map_some, Option.map_some, hmax]

/-- A decision is the same as long as the plan's mark is. -/
theorem Resuspended.decision (h : Resuspended s s') (disk : Disk) (hmark : s'.planMark p = s.planMark p) (u : String) :
    s'.decision disk p u = s.decision disk p u := by
  rw [Store.decision, Store.decision, hmark, h.diskLimit, h.homeSize]

section Plan
variable (h : Orderly s) (disk : Disk) (hp : p ∈ s.plans) (b : Bool)
include h hp

/-- A step of the outer loop. -/
theorem Orderly.checkPlanQuota_eq : checkPlanQuota disk (s, b) p =
    if s.planMark p = some true ∨ (s.diskLimit p).truthy = false then ((s, b), .ok ())
    else Collect.runAll (checkUserQuota disk (s.diskLimit p)) (s.seats p) (s, b) := by
  obtain ⟨P, hP⟩ := Dict.mem_iff.1 hp
  obtain ⟨m, hm, hmark⟩ := h.planMark_some hP
  have hlimit : s.diskLimit p = prop P.planMaximums planDiskSpace := by
    rw [diskLimit, hP]
    rfl
  rw [checkPlanQuota.eq_def]
  dsimp only
  rw [hP]
  dsimp only
  rw [hm, hmark, hlimit, seats_of_get? hP]
  dsimp only
  cases m with
  | true => simp
  | false =>
    cases (prop P.planMaximums planDiskSpace).truthy with
    | true => simp
    | false => simp

variable (hc : s.Climbs)
include hc

/-- Where every decision is what the users' marks say nothing is changed. -/
theorem Orderly.checkPlanQuota_quiet
    (hquiet : ∀ u ∈ s.seats p, s.decision disk p u = none ∨ s.decision disk p u = s.userMark u) :
    checkPlanQuota disk (s, b) p = ((s, b), .ok ()) := by
  rw [h.checkPlanQuota_eq disk hp]
  split
  · rfl
  · rename_i hloud
    apply Collect.runAll_quiet
    intro u hu
    have huser : u ∈ s.users := h.integrity.linked.user_mem hu
    apply h.checkUserQuota_quiet huser (hc.getUserPathSize_total h.integrity disk huser)
    have hdecision := hquiet u hu
    rwa [Store.decision, if_neg hloud] at hdecision

theorem Orderly.checkPlanQuota_spec : ∃ s' b', checkPlanQuota disk (s, b) p = ((s', b'), .ok ()) ∧
    Orderly s' ∧ Resuspended s s' ∧ (∀ w, w ∉ s.seats p → s'.userMark w = s.userMark w) ∧
    (∀ q, q ∉ s.subs p → s'.planMark q = s.planMark q) ∧
    (∀ u ∈ s.seats p, s'.userMark u = (s.decision disk p u).or (s.userMark u)) ∧ (b' = false → s' = s ∧ b = false) := by
  rw [h.checkPlanQuota_eq disk hp]
  split
  · rename_i hskip
    refine ⟨s, b, rfl, h, .refl s, fun _ _ => rfl, fun _ _ => rfl, fun u _ => ?_, fun hb => ⟨rfl, hb⟩⟩
    rw [Store.decision, if_pos hskip]
    rfl
  · rename_i hloud
    -- one user after the other: what the loop has left behind, and what it has not touched yet
    have hstep : ∀ u ∈ s.seats p, ∀ t : Store × Bool, Orderly t.1 → Resuspended s t.1 →
        ∃ s' b', checkUserQuota disk (s.diskLimit p) t u = ((s', b'), .ok ()) ∧ Orderly s' ∧ Resuspended t.1 s' ∧
          (∀ w, w ≠ u → s'.userMark w = t.1.userMark w) ∧
          (∀ q, q ∉ s.ownPlans u → s'.planMark q = t.1.planMark q) ∧
          s'.userMark u = (s.decision disk p u).or (t.1.userMark u) ∧ (b' = false → s' = t.1 ∧ t.2 = false) := by
      intro u hu t ht hres
      have huser : u ∈ s.users := h.integrity.linked.user_mem hu
      have hsize : t.1.getUserPathSize disk u = .ok (s.homeSize disk u) := by
        rw [hres.getUserPathSize]
        exact hc.getUserPathSize_total h.integrity disk huser
      have hone := ht.checkUserQuota_spec ((mem_users_of_resuspended hres).2 huser) hsize (s.diskLimit p) t.2
      rw [hres.ownPlans] at hone
      rw [Store.decision, if_neg hloud]
      exact hone
    obtain ⟨t, hrun, ⟨ht, hres, husers, hplans, hflag⟩, hdone⟩ := Collect.runAll_settles
      (f := checkUserQuota disk (s.diskLimit p)) (l := s.seats p)
      (I := fun t => Orderly t.1 ∧ Resuspended s t.1 ∧ (∀ w, w ∉ s.seats p → t.1.userMark w = s.userMark w) ∧
        (∀ q, q ∉ s.subs p → t.1.planMark q = s.planMark q) ∧ (t.2 = false → t.1 = s ∧ b = false))
      (T := fun u t => t.1.userMark u = s.userMark u)
      (S := fun u t => t.1.userMark u = (s.decision disk p u).or (s.userMark u))
      (by
        rintro u hu t ⟨ht, hres, husers, hplans, hflag⟩ huntouched
        obtain ⟨s', b', hone, h', hres', hother, hpother, hmark, hb⟩ := hstep u hu t ht hres
        refine ⟨(s', b'), hone, ⟨h', hres.trans hres', fun w hw => ?_, fun q hq => ?_, fun hb' => ?_⟩, ?_⟩
        · rw [hother w (fun heq => hw (heq ▸ hu)), husers w hw]
        · rw [hpother q (fun hown => hq (mem_subs.2 ⟨u, hu, hown⟩)), hplans q hq]
        · obtain ⟨hsame, hbt⟩ := hb hb'
          obtain ⟨hsame', hb₀⟩ := hflag hbt
          exact ⟨hsame.trans hsame', hb₀⟩
        · rw [hmark, huntouched])
      ((s.seats_nodup p).pairwise_of_forall_ne (by
        rintro u hu v hv hne t t' ⟨ht, hres, -⟩ hone huntouched
        obtain ⟨s', b', hone', -, -, hother, -⟩ := hstep u hu t ht hres
        rw [hone] at hone'
        cases hone'
        rw [hother v hne.symm, huntouched]))
      ((s.seats_nodup p).pairwise_of_forall_ne (by
        rintro u hu v hv hne t t' ⟨ht, hres, -⟩ hone hsettled
        obtain ⟨s', b', hone', -, -, hother, -⟩ := hstep v hv t ht hres
        rw [hone] at hone'
        cases hone'
        rw [hother u hne, hsettled]))
      (s := (s, b)) ⟨h, .refl s, fun _ _ => rfl, fun _ _ => rfl, fun hb => ⟨rfl, hb⟩⟩ fun _ _ => rfl
    exact ⟨t.1, t.2, hrun, ht, hres, husers, hplans, hdone, hflag⟩

end Plan

theorem Linked.listed_mem (h : Linked s) {n : Nat} {l : List String} (hl : s.getPlansByPlanName p n = .ok l) :
    ∀ q ∈ l, q ∈ s.plans := by
  have hsub : ∀ r q, q ∈ s.subs r → q ∈ s.plans := by
    intro r q hq
    obtain ⟨u, hu, hown⟩ := mem_subs.1 hq
    exact h.sub_mem hu hown
  exact (getPlansByPlanName_led hl).forall (fun q hq => hsub p q hq) fun r q _ hq => hsub r q hq

/-- What the pass leaves of a store: each user of a listed plan is marked as the pass has decided. -/
structure Checked (disk : Disk) (l : List String) (s s' : Store) : Prop where
  orderly : Orderly s'
  same : Resuspended s s'
  decided : ∀ p ∈ l, ∀ u ∈ s.seats p, s'.userMark u = (s'.decision disk p u).or (s.userMark u)
  others : ∀ u, (∀ p ∈ l, u ∉ s.seats p) → s'.userMark u = s.userMark u

/-- The outer loop. A plan's own mark is final when its users are looked at, because the plan of its owner
is listed in front of it. -/
theorem Orderly.checkPlans (h : Orderly s) (hc : s.Climbs) (disk : Disk) {n : Nat} {l : List String}
    (hl : s.getPlansByPlanName p n = .ok l) : ∃ s' b', Collect.runAll (checkPlanQuota disk) l (s, false) = ((s', b'), .ok ()) ∧
      Checked disk l s s' ∧ (b' = false → s' = s) := by
  have hlinked := h.integrity.linked
  obtain ⟨hnodup, horder⟩ := hc.plans_in_order hlinked hl
  have hmem := hlinked.listed_mem hl
  have hstep : ∀ q ∈ l, ∀ t : Store × Bool, Orderly t.1 → Resuspended s t.1 →
      ∃ s' b', checkPlanQuota disk t q = ((s', b'), .ok ()) ∧ Orderly s' ∧ Resuspended t.1 s' ∧
        (∀ w, w ∉ s.seats q → s'.userMark w = t.1.userMark w) ∧
        (∀ r, r ∉ s.subs q → s'.planMark r = t.1.planMark r) ∧
        (∀ u ∈ s.seats q, s'.userMark u = (t.1.decision disk q u).or (t.1.userMark u)) ∧
        (b' = false → s' = t.1 ∧ t.2 = false) := by
    intro q hq t ht hres
    have hone := ht.checkPlanQuota_spec disk ((mem_plans_of_resuspended hres).2 (hmem q hq)) t.2 (hres.climbs hc)
    rw [hres.seats, hres.subs] at hone
    exact hone
  obtain ⟨t, hrun, ⟨ht, hres, hothers, hflag⟩, hdone⟩ := Collect.runAll_settles
    (f := checkPlanQuota disk) (l := l)
    (I := fun t => Orderly t.1 ∧ Resuspended s t.1 ∧
      (∀ u, (∀ q ∈ l, u ∉ s.seats q) → t.1.userMark u = s.userMark u) ∧ (t.2 = false → t.1 = s))
    (T := fun q t => ∀ u ∈ s.seats q, t.1.userMark u = s.userMark u)
    (S := fun q t => ∀ u ∈ s.seats q, t.1.userMark u = (t.1.decision disk q u).or (s.userMark u))
    (by
      rintro q hq t ⟨ht, hres, hothers, hflag⟩ huntouched
      obtain ⟨s', b', hone, h', hres', hother, hplans, hmarks, hb⟩ := hstep q hq t ht hres
      have hown : q ∉ s.subs q := fun hin => hc.not_below_self hlinked (.single hin)
      refine ⟨(s', b'), hone, ⟨h', hres.trans hres', fun u hu => ?_, fun hb' => ?_⟩, fun u hu => ?_⟩
      · rw [hother u (hu q hq), hothers u hu]
      · obtain ⟨hsame, hbt⟩ := hb hb'
        exact hsame.trans (hflag hbt)
      · rw [hmarks u hu, huntouched u hu, hres'.decision disk (hplans q hown)])
    (hnodup.pairwise_of_forall_ne (by
      rintro q hq r hr hne t t' ⟨ht, hres, -⟩ hone huntouched u hu
      obtain ⟨s', b', hone', -, -, hother, -⟩ := hstep q hq t ht hres
      rw [hone] at hone'
      cases hone'
      rw [hother u (fun hin => hne (h.integrity.seat_unique hin hu)), huntouched u hu]))
    ((hnodup.and horder).imp_of_mem (by
      rintro q r hq hr ⟨hne, hahead⟩ t t' ⟨ht, hres, -⟩ hone hsettled u hu
      obtain ⟨s', b', hone', -, hres', hother, hplans, -⟩ := hstep r hr t ht hres
      rw [hone] at hone'
      cases hone'
      rw [hother u (fun hin => hne (h.integrity.seat_unique hu hin)), hsettled u hu,
        hres'.decision disk (hplans q hahead)]))
    (s := (s, false)) ⟨h, .refl s, fun _ _ => rfl, fun _ => rfl⟩ fun _ _ _ _ => rfl
  exact ⟨t.1, t.2, hrun, ⟨ht, hres, hdone, hothers⟩, hflag⟩

/-- Where the users of each listed plan are marked as the pass decides, it changes nothing. -/
theorem Orderly.checkPlans_quiet (h : Orderly s) (hc : s.Climbs) (disk : Disk) {l : List String} (hmem : ∀ q ∈ l, q ∈ s.plans)
    (hquiet : ∀ q ∈ l, ∀ u ∈ s.seats q, s.decision disk q u = none ∨ s.decision disk q u = s.userMark u) :
    Collect.runAll (checkPlanQuota disk) l (s, false) = ((s, false), .ok ()) := by
  apply Collect.runAll_quiet
  intro q hq
  exact h.checkPlanQuota_quiet disk (hmem q hq) false hc (hquiet q hq)

/-- A pass over the plans of an orderly forest ends, and a second one with the same sizes changes nothing and
writes nothing. -/
theorem second_pass_quiet (h : Orderly s) (hc : s.Climbs) (disk : Disk) :
    (s.checkQuotas disk).outcome = .ok () ∧ ((s.checkQuotas disk).written = false → (s.checkQuotas disk).store = s) ∧
      (s.checkQuotas disk).store.checkQuotas disk =
        { store := (s.checkQuotas disk).store, written := false, outcome := .ok () } := by
  cases hroot : s.plans.get? unlimitedPlanName with
  | none =>
    have hone : s.checkQuotas disk = { store := s, written := false, outcome := .ok () } := by
      rw [checkQuotas.eq_def, hroot]
    rw [hone]
    exact ⟨rfl, fun _ => rfl, hone⟩
  | some root =>
    obtain ⟨l, hl⟩ := h.integrity.linked.getPlansByPlanName_total 10000000 (Dict.mem_of_get? hroot)
    obtain ⟨s', b', hrun, hchecked, hflag⟩ := h.checkPlans hc disk hl
    have hone : s.checkQuotas disk = { store := s', written := b', outcome := .ok () } := by
      rw [checkQuotas.eq_def, hroot]
      dsimp only
      rw [hl]
      dsimp only
      rw [hrun]
    rw [hone]
    refine ⟨rfl, hflag, ?_⟩
    have hres := hchecked.same
    obtain ⟨root', hroot'⟩ := Dict.mem_iff.1 ((mem_plans_of_resuspended hres).2 (Dict.mem_of_get? hroot))
    have hmem := h.integrity.linked.listed_mem hl
    have hquiet := hchecked.orderly.checkPlans_quiet (hres.climbs hc) disk (l := l)
      (fun q hq => (mem_plans_of_resuspended hres).2 (hmem q hq)) (by
        intro q hq u hu
        rw [hres.seats] at hu
        rw [hchecked.decided q hq u hu]
        cases s'.decision disk q u with
        | none => exact .inl rfl
        | some v => exact .inr rfl)
    rw [checkQuotas.eq_def, hroot']
    dsimp only
    rw [hres.getPlansByPlanName, hl]
    dsimp only
    rw [hquiet]

/-- A plan whose users may have ten megabytes each. -/
def tenMegabytes : Obj :=
  Dict.ofList
    [("maxDomainCount", .num (.int 5)), ("maxUserCount", .num (.int 5)), ("canCreatePlan", .bool true),
      ("canCreateUser", .bool true), ("planMaximums", .obj [("plan_disk_space", .num (.int 10))])]

def limitedCalls : List Call :=
  [.addUser unlimitedPlanName "ann" .empty, .addPlan (some "ann") "small" tenMegabytes, .addUser "small" "bob" .empty]

theorem consistent_limited : Consistent (installed.run limitedCalls) := by
  apply consistent_of_adds
  apply Runs.Reached.start.run
  have hplain : PlainOpts tenMegabytes := by
    have hkeys : tenMegabytes.keys =
        ["maxDomainCount", "maxUserCount", "canCreatePlan", "canCreateUser", "planMaximums"] := rfl
    intro k hk hm
    rw [← Dict.mem_keys, hkeys] at hm
    revert k
    decide
  have hwhole : WholeLimits tenMegabytes := by
    intro k hk _
    rcases List.mem_pair.1 hk with rfl | rfl
    · exact ⟨5, rfl⟩
    · exact ⟨5, rfl⟩
  exact ⟨⟨by decide, by decide, plainOpts_empty⟩, ⟨by decide, by decide, hplain, hwhole⟩,
    ⟨by decide, by decide, plainOpts_empty⟩, trivial⟩

theorem orderly_limited : Orderly (installed.run limitedCalls) := by
  apply orderly_of_unsuspended consistent_limited.integrity
  · decide
  · decide

/-- Every home takes twenty megabytes. -/
def fullDisk : Disk := { apps_folder := "/srv".toList, getDiskUsage := fun _ => some 20 }

theorem second_pass_quiet_sample :
    ((installed.run limitedCalls).checkQuotas fullDisk).outcome = .ok () ∧
      (((installed.run limitedCalls).checkQuotas fullDisk).written = false →
        ((installed.run limitedCalls).checkQuotas fullDisk).store = installed.run limitedCalls) ∧
      ((installed.run limitedCalls).checkQuotas fullDisk).store.checkQuotas fullDisk =
        { store := ((installed.run limitedCalls).checkQuotas fullDisk).store, written := false, outcome := .ok () } :=
  second_pass_quiet orderly_limited consistent_limited.forest.climbs fullDisk

/-- Every home takes one megabyte. -/
def smallDisk : Disk := { apps_folder := "/srv".toList, getDiskUsage := fun _ => some 1 }

/-- The sample store with its user suspended twice for the same reason. -/
def twiceSuspended : Store :=
  (installed.run limitedCalls).setUser "bob"
    { User.new "bob" "small" .empty with suspended := .arr [.str planDiskSpace, .str planDiskSpace] }

/-- Each pass takes one of two equal reasons away. -/
theorem second_pass_lifts : ¬∀ (s : Store) (disk : Disk), Integrity s → s.Climbs →
    (∀ p P, s.plans.get? p = some P → P.name = p) → (∀ u U, s.users.get? u = some U → U.name = u) →
      (s.checkQuotas disk).store.checkQuotas disk =
        { store := (s.checkQuotas disk).store, written := false, outcome := .ok () } := by
  intro h
  have hbob : (installed.run limitedCalls).users.get? "bob" = some (User.new "bob" "small" .empty) := rfl
  have hsame : Resuspended (installed.run limitedCalls) twiceSuspended := .setUser hbob rfl
  have hnamed : ∀ u U, twiceSuspended.users.get? u = some U → U.name = u := by
    intro u U hU
    rw [twiceSuspended, Store.setUser, Dict.get?_set] at hU
    split at hU
    · next hu =>
      rw [← Option.some.inj hU, hu]
      exact orderly_limited.userName "bob" (User.new "bob" "small" .empty) hbob
    · exact orderly_limited.userName u U hU
  have hquiet := h twiceSuspended smallDisk (hsame.integrity consistent_limited.integrity)
    (hsame.climbs consistent_limited.forest.climbs) orderly_limited.planName hnamed
  have hwritten := congrArg QuotaRun.written hquiet
  revert hwritten
  decide +kernel

end Store
end JXPanel

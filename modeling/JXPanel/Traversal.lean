import JXPanel.Records
import JXPanel.Collect

namespace JXPanel
set_option autoImplicit true

/-- What a plan is charged for: how a user counts and which limit applies. -/
structure Measure where
  kind : String
  weigh : User → Nat
  limit : Plan → JsVal

def userMeasure : Measure := ⟨"user", fun _ => 1, Plan.maxUserCount⟩

def domainMeasure : Measure := ⟨"domain", fun u => u.domains.size, Plan.maxDomainCount⟩

namespace Store
variable (s : Store)

/-- A way down or up that visits more plans than there are comes back to one of them, and
then the recursion or the loop of the source never ends. -/
def fuel : Nat := s.plans.size + 1

/-- `_totalUsers` and `_totalDomains`. -/
def total (m : Measure) : Nat → Plan → Js Nat
  | 0, _ => .error .stackOverflow
  | n + 1, o_plan =>
    Collect.sumM (fun o =>
      match s.users.get? o with
      | none => .ok 0
      | some user => do
        let below ← Collect.sumM (fun i =>
          match s.plans.get? i with
          | none => .error .typeError
          | some subPlan => if subPlan.suspended.truthy then .ok 0 else total m n subPlan)
          user.subPlans.keys
        return m.weigh user + below) o_plan.users.keys

def totalActiveUsers (p : Plan) : Js Nat := s.total userMeasure s.fuel p

def totalActiveDomains (p : Plan) : Js Nat := s.total domainMeasure s.fuel p

/-- A missing depth stops after the first level, as a depth of 1 does. -/
def getUsersByPlanName : Nat → String → Js (List String)
  | 0, plan_name =>
    match s.plans.get? plan_name with
    | none => .error (.thrown (plan_name ++ " plan doesn't exist"))
    | some plan => .ok plan.users.keys
  | deep + 1, plan_name =>
    match s.plans.get? plan_name with
    | none => .error (.thrown (plan_name ++ " plan doesn't exist"))
    | some plan => Collect.concatM (fun o =>
        if deep = 0 then .ok [o]
        else match s.users.get? o with
          | none => .ok [o]
          | some user => do
            let below ← Collect.concatM (fun i => getUsersByPlanName deep i) user.subPlans.keys
            return o :: below) plan.users.keys

def getUsersByUserName (user_name : String) (deep : Nat) : Js (List String) :=
  match s.users.get? user_name with
  | none => .error (.thrown (user_name ++ " user doesn't exist"))
  | some user => Collect.concatM (fun o => s.getUsersByPlanName deep o) user.subPlans.keys

def getPlansByUserName : Nat → String → Js (List String)
  | 0, user_name =>
    match s.users.get? user_name with
    | none => .error (.thrown (user_name ++ " user doesn't exist"))
    | some user => .ok user.subPlans.keys
  | deep + 1, user_name =>
    match s.users.get? user_name with
    | none => .error (.thrown (user_name ++ " user doesn't exist"))
    | some user => Collect.concatM (fun o =>
        if deep = 0 then .ok [o]
        else match s.plans.get? o with
          | none => .error .typeError
          | some plan => do
            let below ← Collect.concatM (fun i => getPlansByUserName deep i) plan.users.keys
            return o :: below) user.subPlans.keys

def getPlansByPlanName (plan_name : String) (deep : Nat) : Js (List String) := do
  let users ← s.getUsersByPlanName deep plan_name
  let plans ← Collect.concatM (fun u => s.getPlansByUserName deep u) users
  return plans.eraseDups

/-- `getDomainsByUserName(null)`. -/
def getAllDomains : List String := s.domains.keys

def getDomainsByUserName (user_name : String) (deep : Nat) : Js (List String) :=
  match s.users.get? user_name with
  | none => .error (.thrown (user_name ++ " user doesn't exist"))
  | some user =>
    if deep ≤ 1 then .ok user.domains.keys
    else do
      let users ← s.getUsersByUserName user_name (deep - 1)
      let below ← Collect.concatM (fun o =>
        match s.users.get? o with
        | none => .error .typeError
        | some sub_user => .ok sub_user.domains.keys) users
      return user.domains.keys ++ below

def getDomainsByPlanName (name : String) (deep : Nat) : Js (List String) := do
  let users ← s.getUsersByPlanName 1 name
  Collect.concatM (fun u => s.getDomainsByUserName u deep) users

def isOwnerOfUser (who whom : String) : Js Bool := do
  let arr ← s.getUsersByUserName who 1
  return decide (whom ∈ arr)

def isOwnerOfDomain (who whom : String) : Js Bool := do
  let arr ← s.getDomainsByUserName who 1
  return decide (whom ∈ arr)

def isOwnerOfPlan (who whom : String) : Js Bool := do
  let arr ← s.getPlansByUserName 1 who
  return decide (whom ∈ arr)

def getParentPlanName (name : String) : Option String :=
  match s.plans.get? name with
  | none => none
  | some plan =>
    match s.users.get? plan.owner with
    | none => none
    | some user => if name = user.plan then none else some user.plan

/-- The parent plan that the effective values of a plan are taken from. -/
def parentPlan (p : Plan) : Option Plan :=
  if p.owner = "" then none
  else match s.getParentPlanName p.name with
    | none => none
    | some parentPlanName => if parentPlanName = "" then none else s.plans.get? parentPlanName

def lesserMaximum (val parentVal : JsVal) : JsVal :=
  if JsVal.strictEq parentVal defaultMaximum || JsVal.strictEq val defaultMaximum then
    if JsVal.strictEq parentVal defaultMaximum then val else parentVal
  else if parentVal.lt val then parentVal else val

/-- Goes up to the top parent and gets the effective maximum for this plan. -/
def getMaximum (field_name : String) : Nat → Plan → Js JsVal
  | 0, _ => .error .stackOverflow
  | n + 1, p =>
    if p.name = unlimitedPlanName then .ok defaultMaximum
    else match s.parentPlan p with
      | none => .ok (prop p.planMaximums field_name)
      | some parent => do
        let parentVal ← getMaximum field_name n parent
        return lesserMaximum (prop p.planMaximums field_name) parentVal

/-- Goes up to the top parent and gets the effective flag for this plan. -/
def getBool (field_name : String) : Nat → Plan → Js JsVal
  | 0, _ => .error .stackOverflow
  | n + 1, p =>
    if p.name = unlimitedPlanName then .ok (.bool true)
    else match s.parentPlan p with
      | none => .ok (p.get field_name)
      | some parent => do
        let parentVal ← getBool field_name n parent
        return if JsVal.strictEq parentVal (.bool true) then p.get field_name else parentVal

def GetMaximum (p : Plan) (field_name : String) : Js JsVal := s.getMaximum field_name s.fuel p

def GetBool (p : Plan) (field_name : String) : Js JsVal := s.getBool field_name s.fuel p

end Store
end JXPanel

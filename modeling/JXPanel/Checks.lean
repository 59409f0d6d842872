import JXPanel.Traversal

namespace JXPanel
set_option autoImplicit true

/-- The properties of `with_opts` that the check of a plan reads. -/
structure Limits where
  canCreateUser : JsVal
  maxUserCount : JsVal
  maxDomainCount : JsVal
  planMaximums : JsVal

def limitsOf (opts : Obj) : Limits :=
  { canCreateUser := prop opts "canCreateUser"
    maxUserCount := prop opts "maxUserCount"
    maxDomainCount := prop opts "maxDomainCount"
    planMaximums := prop opts "planMaximums" }

namespace Plan

def limits (p : Plan) : Limits :=
  { canCreateUser := p.canCreateUser
    maxUserCount := p.maxUserCount
    maxDomainCount := p.maxDomainCount
    planMaximums := .obj p.planMaximums.entries }

/-- A limit is beyond another one unless either of them stands for no limit. -/
def beyond (val limit : JsVal) : Bool :=
  limit.lt val && !JsVal.strictEq val defaultMaximum && !JsVal.strictEq limit defaultMaximum

/-- The refusal of a single maximum of a new plan. -/
def exceeded (p : Plan) (o : String) (val : JsVal) : Option String :=
  let own := prop p.planMaximums o
  if own.truthy && beyond val own then some ("PlanCannotAddMore|" ++ o ++ "|" ++ own.toKey)
  else none

/-- `CheckOperation(AddPlan, with_opts)`. -/
def checkAddPlan (p : Plan) (with_opts : Limits) : Js (Option String) :=
  if !p.canCreatePlan.truthy then .ok (some "PlanCannotAddPlans")
  else if !with_opts.planMaximums.truthy then
    .error (.thrown "plan should have a planMaximums definition")
  else if with_opts.canCreateUser.truthy && !p.canCreateUser.truthy then
    .ok (some "PlanCannotAddUsers")
  else if p.maxUserCount.lt with_opts.maxUserCount then
    .ok (some ("PlanCannotAddMoreUsers|" ++ p.maxUserCount.toKey))
  else if p.maxDomainCount.lt with_opts.maxDomainCount then
    .ok (some ("PlanCannotAddMoreDomains|" ++ p.maxDomainCount.toKey))
  else .ok (with_opts.planMaximums.toObj.entries.findSome? (fun e => p.exceeded e.1 e.2))

end Plan

namespace Store
variable (s : Store)

/-- The loop over the owners' plans. An owner or a plan with an empty name ends it. -/
def walkUp (m : Measure) : Nat → Option User → Js (Option String)
  | _, none => .ok none
  | 0, some _ => .error .hangs
  | n + 1, some _owner =>
    if _owner.plan = "" then .ok none
    else match s.plans.get? _owner.plan with
      | none => .error .typeError
      | some _plan => do
        let count ← s.total m s.fuel _plan
        if (m.limit _plan).le (.ofNat count) then
          return some ("PlanParentCannotAddMore|" ++ m.kind)
        if _plan.owner = "" then return none
        walkUp m n (s.users.get? _plan.owner)

/-- The part of the checks for a new user and a new domain that counts. -/
def checkTotal (m : Measure) (p : Plan) : Js (Option String) := do
  let count ← s.total m s.fuel p
  if (m.limit p).le (.ofNat count) then
    return some ("PlanCannotAddMore|" ++ m.kind ++ "|" ++ (m.limit p).toKey)
  s.walkUp m s.fuel (s.users.get? p.owner)

/-- `CheckOperation(AddUser)`. -/
def checkAddUser (p : Plan) : Js (Option String) :=
  if p.suspended.truthy then .ok (some "UserSuspended")
  else if !p.canCreateUser.truthy then .ok (some "PlanCannotAddUsers")
  else s.checkTotal userMeasure p

/-- `CheckOperation(AddDomain)`. -/
def checkAddDomain (p : Plan) : Js (Option String) :=
  if p.suspended.truthy then .ok (some "UserSuspended")
  else s.checkTotal domainMeasure p

/-- The part of `hosting_tools.OnSuspend` that reads the store: the applications of these
domains are stopped. -/
def onSuspendPlan (name : String) : Js Unit := do
  let _ ← s.getDomainsByPlanName name 1
  return ()

def onSuspendUser (name : String) : Js Unit := do
  let _ ← s.getDomainsByUserName name 1
  return ()

end Store

/-- A `suspended` value read as the list that a reason is looked up in. A string is wrapped,
and any other value that is no list has no `indexOf`. -/
def reasons (suspended : JsVal) : Js (List JsVal) :=
  match suspended with
  | .str t => .ok [.str t]
  | .arr l => .ok l
  | _ => .error .typeError

def addReason (suspended : JsVal) (o : String) : Js JsVal := do
  let l ← reasons (if suspended.truthy then suspended else .arr [])
  return .arr (if l.any (JsVal.strictEq (.str o)) then l else l ++ [.str o])

/-- Remove the first entry that is the reason. -/
def dropReason (o : String) : List JsVal → List JsVal
  | [] => []
  | v :: l => if JsVal.strictEq (.str o) v then l else v :: dropReason o l

def removeReason (suspended : JsVal) (o : Option String) : Js JsVal :=
  match o with
  | none => .ok (.bool false)
  | some o =>
    if o = "" then .ok (.bool false)
    else if !suspended.truthy then .ok suspended
    else do
      let l ← reasons suspended
      let l := dropReason o l
      return if l.isEmpty then .bool false else .arr l

namespace Store

def suspendPlan (s : Store) (name o : String) : Store × Js Unit :=
  match s.plans.get? name with
  | none => (s, .error .typeError)
  | some p =>
    match addReason p.suspended o with
    | .error f => (s, .error f)
    | .ok v =>
      let s' := s.setPlan name { p with suspended := v }
      (s', s'.onSuspendPlan p.name)

def unSuspendPlan (s : Store) (name : String) (o : Option String) : Store × Js Unit :=
  match s.plans.get? name with
  | none => (s, .error .typeError)
  | some p =>
    match removeReason p.suspended o with
    | .error f => (s, .error f)
    | .ok v => (s.setPlan name { p with suspended := v }, .ok ())

def suspendUser (s : Store) (name o : String) : Store × Js Unit :=
  match s.users.get? name with
  | none => (s, .error .typeError)
  | some u =>
    match addReason u.suspended o with
    | .error f => (s, .error f)
    | .ok v =>
      let s' := s.setUser name { u with suspended := v }
      match s'.onSuspendUser u.name, s'.getPlansByUserName 1 u.name with
      | .error f, _ => (s', .error f)
      | .ok _, .error f => (s', .error f)
      | .ok _, .ok plans => Collect.runAll (fun s i => s.suspendPlan i o) plans s'

def unSuspendUser (s : Store) (name : String) (o : Option String) : Store × Js Unit :=
  match s.users.get? name with
  | none => (s, .error .typeError)
  | some u =>
    match removeReason u.suspended o with
    | .error f => (s, .error f)
    | .ok v =>
      let s' := s.setUser name { u with suspended := v }
      match s'.getPlansByUserName 1 u.name with
      | .error f => (s', .error f)
      | .ok plans => Collect.runAll (fun s i => s.unSuspendPlan i o) plans s'

end Store
end JXPanel

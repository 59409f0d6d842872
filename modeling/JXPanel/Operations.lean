import JXPanel.Checks
import JXPanel.Runs

namespace JXPanel
set_option autoImplicit true

/-- What a delete call returns to the callers that clean up outside the store. -/
structure Report where
  plans : List String
  users : List String
  domains : List String
deriving DecidableEq

/-- The data an update of a plan is given: a copy of the record or the stored object itself. -/
inductive PlanData
  | copy (p : Plan)
  | live

/-- The depth that the deletes and the updates of plans go down to. -/
def deepest : Nat := 100000

namespace Store

/-- Nothing is changed when the check before a change throws or returns a refusal. -/
def guarded (s : Store) (check : Js (Option String)) (change : Store × Js (Option String)) :
    Store × Js (Option String) :=
  match check with
  | .error f => (s, .error f)
  | .ok (some res) => (s, .ok (some res))
  | .ok none => change

def storeNewPlan (s : Store) (owner_user name : String) (opts : Obj) (attach : Store → Store) :
    Store × Js (Option String) :=
  match Plan.new name owner_user opts with
  | .error f => (s, .error f)
  | .ok plan => (attach (s.setPlan name plan), .ok none)

/-- No owner stands for `SUPER_USER`, whose own `subPlans` nothing reads. A name that is inherited is
taken for one of a plan. -/
def addPlan (s : Store) (owner_user : Option String) (name : String) (opts : Obj) :
    Store × Js (Option String) :=
  if name ∈ s.plans ∨ name ∈ inheritedNames then (s, .error (.thrown (name ++ " plan exists")))
  else match owner_user with
    | none => s.storeNewPlan superUser name opts id
    | some o =>
      match s.users.get? o with
      | none => (s, .error (.thrown (o ++ " not found!")))
      | some user =>
        match s.plans.get? user.plan with
        | none => (s, .error .typeError)
        | some parent =>
          s.guarded (parent.checkAddPlan (limitsOf opts)) <|
            s.storeNewPlan user.name name opts
              (·.modifyUser o (fun u => { u with subPlans := u.subPlans.set name () }))

def addUser (s : Store) (parent_plan name : String) (opts : Obj) : Store × Js (Option String) :=
  if name ∈ s.users then (s, .error (.thrown (name ++ " user exists")))
  else match s.plans.get? parent_plan with
    | none => (s, .error (.thrown (parent_plan ++ " plan not found!")))
    | some parent =>
      s.guarded (s.checkAddUser parent)
        ((s.modifyPlan parent_plan (fun p => { p with users := p.users.set name () })).setUser name
          (User.new name parent.name opts), .ok none)

def addDomain (s : Store) (owner_user name : String) (opts : Obj) : Store × Js (Option String) :=
  if (s.getDomain? name).isSome then (s, .error (.thrown (name ++ " domain exists")))
  else match s.users.get? owner_user with
    | none => (s, .error (.thrown (owner_user ++ " user not found!")))
    | some user =>
      match s.plans.get? user.plan with
      | none => (s, .error .typeError)
      | some plan =>
        s.guarded (s.checkAddDomain plan)
          ((s.modifyUser owner_user (fun u => { u with domains := u.domains.set name () })).setDomain
            name (some (Domain.new name user.name opts)), .ok none)

def eraseDomain (s : Store) (name : String) : Store := { s with domains := s.domains.erase name }

def deleteDomain (s : Store) (name : String) : Store × Js Report :=
  match s.getDomain? name with
  | none => (s, .error (.thrown (name ++ " domain doesn't exist")))
  | some domain =>
    let s' := s.eraseDomain name
    match s.users.get? domain.owner with
    | none => (s', .error .typeError)
    | some _ =>
      (s'.modifyUser domain.owner (fun u => { u with domains := u.domains.erase name }),
        .ok { plans := [], users := [], domains := [name] })

def planContents (s : Store) (name : String) : Js Report := do
  let arr_users ← s.getUsersByPlanName deepest name
  let parts ← Collect.concatM (fun o => do
    let plans ← s.getPlansByUserName deepest o
    let domains ← s.getDomainsByUserName o deepest
    return [(plans, domains)]) arr_users
  return { plans := parts.flatMap Prod.fst, users := arr_users, domains := parts.flatMap Prod.snd }

def removePlan (s : Store) (owner name : String) (arr : Report) : Store :=
  { plans := (s.plans.erase name).eraseAll arr.plans
    users := (s.users.modify owner (fun u => { u with subPlans := u.subPlans.erase name })).eraseAll
      arr.users
    domains := s.domains.eraseAll arr.domains
    config := s.config }

def deletePlan (s : Store) (name : String) : Store × Js Report :=
  match s.plans.get? name with
  | none => (s, .error (.thrown (name ++ " plan doesn't exist")))
  | some plan =>
    match s.users.get? plan.owner with
    | none => (s, .error (.thrown (plan.owner ++ " user doesn't exist")))
    | some _ =>
      match s.planContents name with
      | .error f => (s, .error f)
      | .ok arr => (s.removePlan plan.owner name arr, .ok arr)

/-- The loop over the sub-plans. Each pass starts its lists of users and of domains again from
the list of plans. -/
def deleteSubPlans : List String → Store → Report → Store × Js Report
  | [], s, subs => (s, .ok subs)
  | o :: os, s, subs =>
    match s.deletePlan o with
    | (s', .error f) => (s', .error f)
    | (s', .ok res) =>
      let plans := subs.plans ++ res.plans
      deleteSubPlans os s'
        { plans := plans, users := plans ++ res.users, domains := plans ++ res.domains }

def detachUser (s : Store) (name : String) : Store :=
  { s with plans := s.plans.mapVals (fun _ p => { p with users := p.users.erase name }) }

def dropDomainOf (name : String) (s : Store) (domain : String) : Store × Js Unit :=
  match s.domains.get? domain with
  | none => (s, .ok ())
  | some none => (s, .error .typeError)
  | some (some d) => (if d.owner = name then s.eraseDomain domain else s, .ok ())

def eraseUser (s : Store) (name : String) : Store := { s with users := s.users.erase name }

def deleteUser (s : Store) (name : String) : Store × Js Report :=
  match s.users.get? name with
  | none => (s, .error (.thrown (name ++ " user doesn't exist")))
  | some user =>
    match deleteSubPlans user.subPlans.keys s { plans := [], users := [name], domains := [] } with
    | (s₁, .error f) => (s₁, .error f)
    | (s₁, .ok subs) =>
      match Collect.runAll (dropDomainOf name) s₁.domains.keys (s₁.detachUser name) with
      | (s₂, .error f) => (s₂, .error f)
      | (s₂, .ok ()) => (s₂.eraseUser name, .ok subs)

/-- A user is moved only into a plan of the owner of his plan. -/
def moveCheck (s : Store) (user data : User) : Js Unit :=
  if data.plan = user.plan then .ok ()
  else match s.plans.get? user.plan with
    | none => .error .typeError
    | some parent_plan =>
      match s.users.get? parent_plan.owner with
      | none => .error .typeError
      | some top_owner =>
        if data.plan ∈ top_owner.subPlans then .ok ()
        else .error (.thrown ("Parent plan doesn't have given new plan name " ++ data.plan))

/-- The refusals of `updateUser`, in their order. -/
def updateUserCheck (s : Store) (user data : User) : Js Unit :=
  match s.moveCheck user data with
  | .error f => .error f
  | .ok () =>
    if user.domains.keys ≠ data.domains.keys then
      .error (.thrown "You can't update user's domains from updateUser")
    else if user.subPlans.keys ≠ data.subPlans.keys then
      .error (.thrown "You can't update user's sub plans from updateUser")
    else .ok ()

def updateUser (s : Store) (name : String) (data : User) : Store × Js (Option String) :=
  match s.users.get? name with
  | none => (s, .error (.thrown (name ++ " user doesnt exist")))
  | some user =>
    match s.updateUserCheck user data with
    | .error f => (s, .error f)
    | .ok () => (s.setUser name data, .ok none)

/-- A change of owner adds the domain again while `null` stands in its place. -/
def updateDomain (s : Store) (name : String) (data : Domain) : Store × Js (Option String) :=
  match s.getDomain? name with
  | none => (s, .error (.thrown (name ++ " domain doesnt exist")))
  | some domain =>
    match s.users.get? domain.owner with
    | none => (s, .error .typeError)
    | some user =>
      if data.owner ≠ user.name then
        match (s.setDomain name none).addDomain data.owner name data.toObj with
        | (s', .error f) => (s', .error f)
        | (s', .ok (some res)) => (s'.setDomain name (some domain), .ok (some res))
        | (s', .ok none) =>
          (s'.modifyUser domain.owner (fun u => { u with domains := u.domains.erase name }), .ok none)
      else (s.setDomain name (some (Domain.new name user.name data.toObj)), .ok none)

def lowerSubPlan (o : String) (max_new : JsVal) (s : Store) (name : String) : Store × Js Unit :=
  match s.plans.get? name with
  | none => (s, .error .typeError)
  | some sub_plan =>
    let own := prop sub_plan.planMaximums o
    if own.truthy && Plan.beyond own max_new then s.suspendPlan name o else (s, .ok ())

/-- The loop over the new maximums and, for each, over the plans below. -/
def lowerSubPlans (s : Store) (max_new : Obj) (sub_plans : List String) : Store × Js Unit :=
  Collect.runAll (fun s e => Collect.runAll (lowerSubPlan e.1 e.2) sub_plans s) max_new.entries s

def suspendData (s : Store) (name o : String) : PlanData → (Store × PlanData) × Js Unit
  | .copy d =>
    match addReason d.suspended o with
    | .error f => ((s, .copy d), .error f)
    | .ok v => ((s, .copy { d with suspended := v }), s.onSuspendPlan d.name)
  | .live => (((s.suspendPlan name o).1, .live), (s.suspendPlan name o).2)

/-- The record that the data stands for, when the stored one is `plan`. -/
def readData (s : Store) (name : String) (plan : Plan) : PlanData → Plan
  | .copy d => d
  | .live => (s.plans.get? name).getD plan

def writeData (s : Store) (name : String) : PlanData → Store
  | .copy d => s.setPlan name d
  | .live => s

def suspendOver (m : Measure) (reason name : String) (plan : Plan) (s : Store) (data : PlanData) :
    (Store × PlanData) × Js Bool :=
  match s.total m s.fuel plan with
  | .error f => ((s, data), .error f)
  | .ok count =>
    if (m.limit (s.readData name plan data)).lt (.ofNat count) then
      match s.suspendData name reason data with
      | (r, .error f) => (r, .error f)
      | (r, .ok ()) => (r, .ok true)
    else ((s, data), .ok false)

def unSuspendData (s : Store) (name : String) : PlanData → Store × PlanData
  | .copy d => (s, .copy { d with suspended := .bool false })
  | .live => ((s.unSuspendPlan name none).1, .live)

def updatePlan (s : Store) (name : String) (data : PlanData) : Store × Js (Option String) :=
  match s.plans.get? name with
  | none => (s, .error (.thrown (name ++ " plan doesn't exist")))
  | some plan =>
    if plan.owner ≠ (s.readData name plan data).owner then
      (s, .error (.thrown "You can't change the owner of a plan"))
    else match s.users.get? plan.owner with
      | none => (s, .error .typeError)
      | some user =>
        match s.plans.get? user.plan with
        | none => (s, .error .typeError)
        | some parent =>
          s.guarded (parent.checkAddPlan (s.readData name plan data).limits) <|
            match s.getPlansByPlanName name deepest with
            | .error f => (s, .error f)
            | .ok sub_plans =>
              match s.lowerSubPlans (s.readData name plan data).planMaximums sub_plans with
              | (s₁, .error f) => (s₁, .error f)
              | (s₁, .ok ()) =>
                match suspendOver userMeasure "maxUserCount" name plan s₁ data with
                | ((s₂, _), .error f) => (s₂, .error f)
                | ((s₂, data₂), .ok b₂) =>
                  match suspendOver domainMeasure "maxDomainCount" name plan s₂ data₂ with
                  | ((s₃, _), .error f) => (s₃, .error f)
                  | ((s₃, data₃), .ok b₃) =>
                    let suspended := (s₃.readData name plan data₃).suspended.truthy
                    let r := if suspended && !(b₂ || b₃) then s₃.unSuspendData name data₃
                      else (s₃, data₃)
                    (r.1.writeData name r.2, .ok none)

/-- `update(user, json)` on the stored record, which `updateUser` is then given itself. -/
def editUser (s : Store) (name : String) (json : Obj) : Store × Js (Option String) :=
  match s.users.get? name with
  | none => (s, .ok (some "DBCannotGetUser"))
  | some user => (s.setUser name (user.extend json)).updateUser name (user.extend json)

def editDomain (s : Store) (name : String) (json : Obj) : Store × Js (Option String) :=
  match s.getDomain? name with
  | none => (s, .error .typeError)
  | some domain =>
    (s.setDomain name (some (domain.extend json))).updateDomain name (domain.extend json)

def editedPlan (plan : Plan) (json planMaximums : Obj) : Plan :=
  let plan := plan.extend json
  { plan with planMaximums := planMaximums.foldl Dict.set plan.planMaximums }

def editPlan (s : Store) (name : String) (json planMaximums : Obj) :
    Store × Js (Option String) :=
  match s.plans.get? name with
  | none => (s, .ok (some "DBCannotGetPlan"))
  | some plan => (s.setPlan name (editedPlan plan json planMaximums)).updatePlan name .live

variable {s : Store}

/-- The record is compared with itself, so nothing is refused. -/
theorem updateUser_self (s : Store) (name : String) (user : User) :
    (s.setUser name user).updateUser name user = (s.setUser name user, .ok none) := by
  have hstored : (s.setUser name user).users.get? name = some user := Dict.get?_set_self _ _ _
  have hmove : (s.setUser name user).moveCheck user user = .ok () := if_pos rfl
  have hset : (s.setUser name user).setUser name user = s.setUser name user := by
    simp only [setUser, Dict.set_set]
  simp only [updateUser, hstored, updateUserCheck, hmove, ne_eq, not_true_eq_false, if_false, hset]

theorem editUser_eq {user : User} (hU : s.users.get? name = some user) (json : Obj) :
    s.editUser name json = (s.setUser name (user.extend json), .ok none) := by
  simp only [editUser, hU, updateUser_self]

end Store

/-- The calls that change the store. -/
inductive Call
  | addPlan (owner_user : Option String) (name : String) (opts : Obj)
  | addUser (parent_plan name : String) (opts : Obj)
  | addDomain (owner_user name : String) (opts : Obj)
  | updateUser (name : String) (data : User)
  | updateDomain (name : String) (data : Domain)
  | updatePlan (name : String) (data : PlanData)
  | deleteDomain (name : String)
  | deleteUser (name : String)
  | deletePlan (name : String)
  | suspendPlan (name o : String)
  | unSuspendPlan (name : String) (o : Option String)
  | suspendUser (name o : String)
  | unSuspendUser (name : String) (o : Option String)

/-- The store a call leaves, also when it throws or returns a refusal. -/
def Store.exec (s : Store) : Call → Store
  | .addPlan owner_user name opts => (s.addPlan owner_user name opts).1
  | .addUser parent_plan name opts => (s.addUser parent_plan name opts).1
  | .addDomain owner_user name opts => (s.addDomain owner_user name opts).1
  | .updateUser name data => (s.updateUser name data).1
  | .updateDomain name data => (s.updateDomain name data).1
  | .updatePlan name data => (s.updatePlan name data).1
  | .deleteDomain name => (s.deleteDomain name).1
  | .deleteUser name => (s.deleteUser name).1
  | .deletePlan name => (s.deletePlan name).1
  | .suspendPlan name o => (s.suspendPlan name o).1
  | .unSuspendPlan name o => (s.unSuspendPlan name o).1
  | .suspendUser name o => (s.suspendUser name o).1
  | .unSuspendUser name o => (s.unSuspendUser name o).1

def Store.run (s : Store) (calls : List Call) : Store := calls.foldl Store.exec s

def unlimitedOpts : Obj :=
  Dict.ofList
    [("maxDomainCount", .num (.int 100000)), ("maxUserCount", .num (.int 100000)),
      ("canCreatePlan", .bool true), ("canCreateUser", .bool true), ("planMaximums", .obj []),
      ("plan_custom_socket", .bool true), ("plan_sys_exec", .bool true),
      ("plan_local_native_modules", .bool true), ("plan_ssh", .bool true)]

def installed : Store := (Store.empty.addPlan none unlimitedPlanName unlimitedOpts).1

/-- The stores met in a run of calls that are all as `ok` asks in the store they are made on. -/
abbrev Reached (ok : Store → Call → Prop) : Store → Prop :=
  Runs.Reached Store.exec installed ok

def planOpts (maxUserCount maxDomainCount : Int) : Obj :=
  Dict.ofList
    [("maxDomainCount", .num (.int maxDomainCount)), ("maxUserCount", .num (.int maxUserCount)),
      ("canCreatePlan", .bool true), ("canCreateUser", .bool true), ("planMaximums", .obj [])]

/-- A user of the root plan with a plan of his own, a user of it and a domain of that user. -/
def sampleCalls : List Call :=
  [.addUser unlimitedPlanName "ann" .empty, .addPlan (some "ann") "gold" (planOpts 5 5),
    .addUser "gold" "bob" .empty, .addDomain "bob" "bob.org" .empty]

end JXPanel

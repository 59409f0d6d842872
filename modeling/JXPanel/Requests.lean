import JXPanel.PortSettings
import JXPanel.Submit

namespace JXPanel
set_option autoImplicit true

/-- A panel with one session of it that requests are made in. -/
structure Client where
  panel : Panel
  sessionId : String
  isPanelUninstalled : Bool
  now : Nat
  /-- The forms whose controls the session has been given. -/
  forms : List RecordForm
  /-- Whether it has been given those of the form `jxconfig`. -/
  settings : Bool

/-- What a request comes to before it does anything. -/
inductive Checked
  | accessDenied
  | suspended
  | passed (active_user : ActiveUser)

/-- What is left of the form `jxconfig` once its controls are checked and collected. -/
structure Settings where
  jx_monitor_api : JsVal
  jx_app_min_port : String
  jx_app_max_port : String
  jx_app_port_per_domain : String

/-- What happens to a session and to the store that it works on. -/
inductive ClientRequest
  | getForm (form : RecordForm)
  | getSettings
  | editTableData (table_name id : String)
  | sessionApply (h : Helpers) (c : Submission)
  | applySettings (monitorRestart : Option String) (c : Settings)
  /-- Another page is loaded. -/
  | page
  /-- Something else changes the store. -/
  | call (c : Call)

def tableForm (table_name : String) : Option RecordForm :=
  if table_name = "users" then some .addUser
  else if table_name = "domains" then some .addDomain
  else if table_name = "plans" then some .addPlan
  else none

def ActiveUser.isAdmin (active_user : ActiveUser) : Bool := decide (active_user.plan = some unlimitedPlanName)

def isRecordUpdating (active_user : ActiveUser) (form_name : String) : Option String :=
  (active_user.edits.get? form_name).filter (· ≠ "")

namespace Store
variable (s : Store)

def canAddNewPlan (plan : Plan) : Js (Option String) := do
  let max := prop plan.planMaximums "plan_max_plans"
  let current_plans ← s.getPlansByPlanName plan.name 1
  return if max.le (.ofNat current_plans.length) then some ("PlanCannotAddMorePlans|" ++ max.toKey) else none

/-- Whether a user may open the form of a record. -/
def ownsRecord (username : String) (form : RecordForm) (id : String) : Js Bool :=
  match form with
  | .addUser => do
    let owner ← s.isOwnerOfUser username id
    return owner || decide (username = id)
  | .addPlan => s.isOwnerOfPlan username id
  | .addDomain => s.isOwnerOfDomain username id

/-- The reasons not to give the controls of a form. -/
def renderForm (active_user : ActiveUser) (form : RecordForm) : Js (Option String) :=
  match isRecordUpdating active_user form.name with
  | some id => do
    let owner ← s.ownsRecord active_user.username form id
    return if owner then none else some "AccessDeniedToEditRecord"
  | none =>
    if form ≠ .addPlan then .ok none
    else match s.users.get? active_user.username with
      | none => .ok (some "DBCannotGetUser")
      | some me =>
        if me.plan = unlimitedPlanName then .ok none
        else match s.plans.get? me.plan with
          | none => .ok (some "DBCannotGetPlan")
          | some parentPlan => s.canAddNewPlan parentPlan

/-- The branch of `sessionApply` for the form `jxconfig`, up to where the monitor is restarted, and
whether it is. -/
def applySettings (c : Settings) : Store × Js Bool :=
  let allow_api := c.jx_monitor_api.truthy
  let jx_monitor_api_changed := (prop s.config "jx_monitor_api").truthy != allow_api
  let r := (s.setConfigValue "jx_monitor_api" (.bool allow_api)).setPortRangeText c.jx_app_min_port c.jx_app_max_port
    c.jx_app_port_per_domain
  (r.1, r.2.map fun changed => changed || jx_monitor_api_changed)

end Store

namespace Client

def checkUser (x : Client) (checkIfSuspended : Bool) (form_name : String) : Client × Js Checked :=
  match x.panel.sessions.getUser x.panel.db x.isPanelUninstalled x.sessionId x.now with
  | (s, .error f) => ({ x with panel := { x.panel with sessions := s } }, .error f)
  | (s, .ok none) => ({ x with panel := { x.panel with sessions := s } }, .ok .accessDenied)
  | (s, .ok (some active_user)) =>
    ({ x with panel := { x.panel with sessions := s } },
      -- a suspended user cannot add but can edit
      .ok (if checkIfSuspended && active_user.suspended_txt && (isRecordUpdating active_user form_name).isNone then
        .suspended
      else .passed active_user))

def getForm (x : Client) (form : RecordForm) : Client × Js (Option String) :=
  match x.checkUser true form.name with
  | (x, .error f) => (x, .error f)
  | (x, .ok .accessDenied) => (x, .ok (some "Access Denied"))
  | (x, .ok .suspended) => (x, .ok (some "YouAreSuspended"))
  | (x, .ok (.passed active_user)) =>
    match x.panel.db.renderForm active_user form with
    | .ok none => ({ x with forms := form :: x.forms }, .ok none)
    | r => (x, r)

def getSettings (x : Client) : Client × Js (Option String) :=
  match x.checkUser true "jxconfig" with
  | (x, .error f) => (x, .error f)
  | (x, .ok .accessDenied) => (x, .ok (some "Access Denied"))
  | (x, .ok .suspended) => (x, .ok (some "YouAreSuspended"))
  | (x, .ok (.passed active_user)) =>
    if active_user.isAdmin then ({ x with settings := true }, .ok none) else (x, .ok (some "AccessDenied"))

def setEdits (x : Client) (edits : Dict String String → Dict String String) : Client :=
  { x with
    panel := { x.panel with
      sessions := { x.panel.sessions with
        users := x.panel.sessions.users.modify x.sessionId fun a => { a with edits := edits a.edits } } } }

/-- The record is noted in the session; whose it is is not asked. -/
def editTableData (x : Client) (table_name id : String) : Client × Js (Option String) :=
  match x.panel.sessions.getUser x.panel.db x.isPanelUninstalled x.sessionId x.now with
  | (s, .error f) => ({ x with panel := { x.panel with sessions := s } }, .error f)
  | (s, .ok none) => ({ x with panel := { x.panel with sessions := s } }, .error .typeError)
  | (s, .ok (some _)) =>
    let x := { x with panel := { x.panel with sessions := s } }
    match tableForm table_name with
    | none => (x, .ok (some "UnknownDataTable"))
    | some form =>
      if id = "" then (x, .ok (some "EmptySelection"))
      else
        (x.setEdits fun edits =>
          let edits := edits.set form.name id
          if form = .addDomain then edits.set "appLog" id else edits, .ok none)

/-- A form that was never given to the session has no controls to submit. -/
def sessionApply (x : Client) (h : Helpers) (c : Submission) : Client × Js (Option String) :=
  match x.checkUser false c.form.name with
  | (x, .error f) => (x, .error f)
  | (x, .ok (.passed active_user)) =>
    if c.form ∉ x.forms then (x, .error .typeError)
    else
      let r := x.panel.submit h active_user.username (isRecordUpdating active_user c.form.name) c
      ({ x with panel := r.1 }, r.2)
  | (x, .ok _) => (x, .ok (some "Access Denied"))

/-- `sessionApply` of the form `jxconfig`. Whose domains it gives other ports is not asked. -/
def applySettings (x : Client) (monitorRestart : Option String) (c : Settings) : Client × Js (Option String) :=
  match x.checkUser false "jxconfig" with
  | (x, .error f) => (x, .error f)
  | (x, .ok (.passed _)) =>
    if !x.settings then (x, .error .typeError)
    else
      let r := x.panel.db.applySettings c
      ({ x with panel := { x.panel with db := r.1 } }, r.2.map fun changed => if changed then monitorRestart else none)
  | (x, .ok _) => (x, .ok (some "Access Denied"))

/-- The record that is edited and the forms are forgotten with the page. -/
def page (x : Client) : Client := { x.setEdits fun _ => .empty with forms := [], settings := false }

def answer (x : Client) : ClientRequest → Client
  | .getForm form => (x.getForm form).1
  | .getSettings => x.getSettings.1
  | .editTableData table_name id => (x.editTableData table_name id).1
  | .sessionApply h c => (x.sessionApply h c).1
  | .applySettings monitorRestart c => (x.applySettings monitorRestart c).1
  | .page => x.page
  | .call c => { x with panel := { x.panel with db := x.panel.db.exec c } }

end Client
end JXPanel

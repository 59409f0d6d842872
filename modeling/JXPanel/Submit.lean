import JXPanel.Ftp
import JXPanel.Homes
import JXPanel.Ports
import JXPanel.Sessions

namespace JXPanel
set_option autoImplicit true

/-- What the panel's process works on, and where the home of each user is. -/
structure Panel where
  db : Store
  ftp : Ftp
  sessions : Sessions
  homes : Dict String (List Char)

/-- What the helpers of a submission come to: nothing, an error or an exception. -/
structure Helpers where
  apps_folder : List Char
  addSystemUser : Js (Option String)
  moveUserHome : Js (Option String)
  updatePassword : Js (Option String)
  appCreateHomeDir : Js (Option String)
  /-- Why the server for FTP is not restarted. -/
  restart : Option String
  /-- Reading the options of the application that a domain has. -/
  appGetOptions : Js Unit
  /-- The handlers of the add-ons. -/
  events : Js Unit

inductive RecordForm
  | addUser
  | addDomain
  | addPlan
deriving DecidableEq

def RecordForm.name : RecordForm → String
  | addUser => "addUser"
  | addDomain => "addDomain"
  | addPlan => "addPlan"

/-- What the controls that a session is given can write: the names in the record of those that are
saved as they are. -/
def RecordForm.fields : RecordForm → List String
  | addUser =>
    ["person_name", "suspended", "person_email", "person_lang", "name", "plan", "ftp_access", "panel_access"]
  | addDomain =>
    ["name", "main_domain_name", "sub_ipv4", "sub_ipv6", "jx_app_status", "jx_app_type", "jx_app_path",
      "jx_app_args", "jx_web_log", "ssl", "ssl_crt", "ssl_key", "jx_app_ghost", "jx_app_nodebb",
      "nodebb_mongodb_port", "nodebb_mongodb_database", "nodebb_mongodb_username", "jx_app_meteor"]
  | addPlan =>
    ["name", "suspended", "maxDomainCount", "maxUserCount", "plan_cpu_interval", "plan_custom_socket",
      "plan_sys_exec", "plan_local_native_modules", "plan_ssh", "plan_nginx_directives", "plan_ipv4_pool",
      "plan_ipv6_pool"]

/-- What is left of a submission once its controls are checked and collected. -/
structure Submission where
  form : RecordForm
  json : Obj
  planMaximums : Obj
  person_password : JsVal
  person_username_ok : JsVal

abbrev Outcome := Panel × Js (Option String)

/-- The steps go on only behind a step without an error. -/
def Outcome.andThen (r : Outcome) (next : Panel → Outcome) : Outcome :=
  match r with
  | (p, .ok none) => next p
  | r => r

/-- Only the form's own fields are written. -/
def Submission.OfForm (c : Submission) : Prop := ∀ k ∈ c.json, k ∈ c.form.fields

def Submission.name (c : Submission) : String := (prop c.json "name").toKey

namespace Panel

def outcome (p : Panel) (r : Js (Option String)) : Outcome := (p, r)

def withStore (p : Panel) (r : Store × Js (Option String)) : Outcome :=
  ({ p with db := r.1 }, r.2)

def clearUserByName (p : Panel) (username : String) : Outcome :=
  let r := p.sessions.clearUserByName username
  ({ p with sessions := r.1 }, r.2.map fun _ => none)

def withHome (h : Helpers) (p : Panel) (plan_name user_name : String)
    (place : List Char → Dict String (List Char)) : Outcome :=
  match p.db.getUserPath h.apps_folder plan_name user_name with
  | .error f => (p, .error f)
  | .ok home => ({ p with homes := place home }, .ok none)

def placeHome (h : Helpers) (p : Panel) (plan_name user_name : String) : Outcome :=
  p.withHome h plan_name user_name (p.homes.set user_name)

/-- `usermod -m`: with the directory all that is in it is moved, other homes included. -/
def moveHome (homes : Dict String (List Char)) (user_name : String) (new_home : List Char) : Dict String (List Char) :=
  match homes.get? user_name with
  | none => homes.set user_name new_home
  | some home =>
    let moved := homes.mapVals fun _ path =>
      if Paths.Inside home path then
        new_home ++ '/' :: ['/'].intercalate ((Paths.place path).drop (Paths.place home).length)
      else path
    moved.set user_name new_home

def moveUserHome (h : Helpers) (p : Panel) (user_name new_plan_name : String) : Outcome :=
  (p.outcome h.moveUserHome).andThen fun p =>
    (p.withHome h new_plan_name user_name (moveHome p.homes user_name)).andThen fun p => p.clearUserByName user_name

def addSystemUser (h : Helpers) (p : Panel) (json : Obj) : Outcome :=
  (p.outcome h.addSystemUser).andThen fun p =>
    placeHome h p (prop json "plan").toKey (prop json "name").toKey

def setFtpAccess (h : Helpers) (p : Panel) (update_name : String) (json : Obj) : Outcome :=
  let r := if (prop json "ftp_access").truthy then p.ftp.allowUser p.db update_name h.restart
    else p.ftp.denyUser p.db update_name h.restart
  ({ p with ftp := r.1.1, db := r.1.2 }, r.2)

/-- The add-ons hear of the user also when his access is not set. -/
def finishUser (h : Helpers) (p : Panel) (update_name : String) (json : Obj) : Outcome :=
  match p.setFtpAccess h update_name json with
  | (p, .error f) => (p, .error f)
  | (p, .ok ret) => (p, h.events.map fun _ => ret)

/-- A user without access to the panel is logged out when another user says so. -/
def endSessions (p : Panel) (username update_name : String) (json : Obj) : Outcome :=
  if !(prop json "panel_access").truthy && decide (p.db.planOf update_name ≠ some unlimitedPlanName) &&
      decide (username ≠ update_name) then
    p.clearUserByName update_name
  else (p, .ok none)

/-- The record is written before the password is changed and the error of either is looked at. -/
def writeUser (h : Helpers) (p : Panel) (username update_name : String) (c : Submission) : Outcome :=
  match p.withStore (p.db.editUser update_name c.json) with
  | (p, .error f) => (p, .error f)
  | (p, .ok ret) =>
    match if c.person_password.truthy then h.updatePassword else .ok none with
    | .error f => (p, .error f)
    | .ok err =>
      (p.endSessions username update_name c.json).andThen fun p =>
        match err.or ret with
        | some err => (p, .ok (some err))
        | none => p.finishUser h update_name c.json

def sessionEditUser (h : Helpers) (p : Panel) (username update_name : String) (c : Submission) : Outcome :=
  match p.db.users.get? update_name with
  | none => (p, .ok (some "DBCannotGetUser"))
  | some user =>
    match c.json.get? "plan" with
    | none =>
      if username = update_name then p.writeUser h username update_name c else (p, .ok (some "PlanInvalid"))
    | some new_plan =>
      if JsVal.strictEq (.str user.plan) new_plan then p.writeUser h username update_name c
      else (p.moveUserHome h update_name new_plan.toKey).andThen fun p => p.writeUser h username update_name c

/-- The account of a new user: one that is made, or one that is there and whose home is moved. -/
def makeAccount (h : Helpers) (p : Panel) (c : Submission) : Outcome :=
  if c.person_username_ok.truthy then p.moveUserHome h c.name (prop c.json "plan").toKey
  else
    match p.addSystemUser h c.json with
    | (p, .ok (some err)) =>
      match p.db.deleteUser c.name with
      | (db, .error f) => ({ p with db := db }, .error f)
      | (db, .ok _) => ({ p with db := db }, .ok (some err))
    | r => r

def tryAddUser (h : Helpers) (p : Panel) (c : Submission) : Outcome :=
  (p.withStore (p.db.addUser (prop c.json "plan").toKey c.name c.json)).andThen fun p =>
    (p.makeAccount h c).andThen fun p => p.finishUser h c.name c.json

/-- The branch for a new user. What is thrown takes the user away again. -/
def sessionAddUser (h : Helpers) (p : Panel) (c : Submission) : Outcome :=
  match p.tryAddUser h c with
  | (p, .error f) =>
    if c.name ∈ p.db.users then
      match p.db.deleteUser c.name with
      | (db, .error g) => ({ p with db := db }, .error g)
      | (db, .ok _) => ({ p with db := db }, .error f)
    else (p, .error f)
  | r => r

def sessionEditDomain (h : Helpers) (p : Panel) (update_name : String) (c : Submission) : Outcome :=
  match p.db.getDomain? update_name with
  | none => (p, .error .typeError)
  | some _ =>
    match h.appGetOptions with
    | .error f => (p, .error f)
    | .ok () => p.withStore (p.db.editDomain update_name c.json)

def sessionAddDomain (h : Helpers) (p : Panel) (username : String) (c : Submission) : Outcome :=
  p.withStore (p.db.sessionAddDomain username c.json h.appCreateHomeDir)

def planJson (json : Obj) : Obj :=
  (json.set "maxUserCount" (.num (prop json "maxUserCount").parseInt)).set "maxDomainCount"
    (.num (prop json "maxDomainCount").parseInt)

def newPlanJson (json planMaximums : Obj) : Obj :=
  let json := planJson json
  ((json.set "canCreateUser" (.bool (!JsVal.strictEq (prop json "maxUserCount") (.num (.int 0))))).set
    "canCreatePlan" (.bool (!JsVal.strictEq (prop planMaximums "plan_max_plans") (.num (.int 0))))).set
      "planMaximums" (.obj planMaximums.entries)

def sessionEditPlan (p : Panel) (update_name : String) (c : Submission) : Outcome :=
  p.withStore (p.db.editPlan update_name (planJson c.json) c.planMaximums)

def sessionAddPlan (p : Panel) (username : String) (c : Submission) : Outcome :=
  p.withStore (p.db.addPlan (some username) c.name (newPlanJson c.json c.planMaximums))

/-- The form is in the mode of adding when there is no record that it updates. -/
def submit (h : Helpers) (p : Panel) (username : String) (isUpdate : Option String) (c : Submission) : Outcome :=
  match isUpdate with
  | some update_name =>
    match c.form with
    | .addUser => p.sessionEditUser h username update_name c
    | .addDomain => p.sessionEditDomain h update_name c
    | .addPlan => p.sessionEditPlan update_name c
  | none =>
    if !(prop c.json "name").truthy then (p, .ok (some "FormEmpty"))
    else match c.form with
      | .addUser => p.sessionAddUser h c
      | .addDomain => p.sessionAddDomain h username c
      | .addPlan => p.sessionAddPlan username c

def readyHelpers : Helpers :=
  { apps_folder := "/jxpanel/apps".toList
    addSystemUser := .ok none
    moveUserHome := .ok none
    updatePassword := .ok none
    appCreateHomeDir := .ok none
    restart := none
    appGetOptions := .ok ()
    events := .ok () }

theorem get?_planJson_of_ne (json : Obj) {k : String} (hu : k ≠ "maxUserCount") (hd : k ≠ "maxDomainCount") :
    (planJson json).get? k = json.get? k := by
  rw [planJson, Dict.get?_set_ne _ _ hd, Dict.get?_set_ne _ _ hu]

theorem planJson_absent {json : Obj} {k : String} (hk : k ∉ json) (hu : k ≠ "maxUserCount")
    (hd : k ≠ "maxDomainCount") : k ∉ planJson json := by
  rw [← Dict.get?_eq_none, get?_planJson_of_ne json hu hd, Dict.get?_eq_none]
  exact hk

end Panel

/-- What a form has no control for stays as it is. -/
theorem Submission.OfForm.planJson_absent {c : Submission} (hc : c.OfForm) (hform : c.form = .addPlan) {k : String}
    (hk : k ∉ RecordForm.addPlan.fields) : k ∉ Panel.planJson c.json := by
  apply Panel.planJson_absent
  · intro hmem
    have hfield := hc k hmem
    rw [hform] at hfield
    exact hk hfield
  · rintro rfl
    exact hk (by decide)
  · rintro rfl
    exact hk (by decide)

end JXPanel

import JXPanel.Operations

namespace JXPanel
set_option autoImplicit true

/-- proftpd.conf, around what the section for logins holds. -/
structure FtpConf where
  before : List Char
  login : List Char
  after : List Char
deriving DecidableEq

/-- What the module keeps in memory and the configuration file, if there is one. -/
structure Ftp where
  allowedUsers : List String
  conf_str : Option FtpConf
  conf_file : Option FtpConf

namespace FtpConf

def text (c : FtpConf) : List Char :=
  c.before ++ "<Limit LOGIN>".toList ++ c.login ++ "</Limit>".toList ++ c.after

def loginText (allowedUsers : List String) : List Char :=
  "\n  DenyAll\n".toList ++
    if allowedUsers = [] then [] else ("  AllowUser OR " ++ ",".intercalate allowedUsers ++ "\n").toList

/-- The file with another list of users. The text is trimmed around the section. -/
def allow (c : FtpConf) (allowedUsers : List String) : FtpConf :=
  { before := c.before.dropWhile jsSpace
    login := loginText allowedUsers
    after := (c.after.reverse.dropWhile jsSpace).reverse ++ ['\n'] }

end FtpConf

def User.ftp_access (user : User) : JsVal := prop user.fields "ftp_access"

def User.setFtpAccess (user : User) (ftp_access : Bool) : User := user.assign "ftp_access" (.bool ftp_access)

namespace Ftp

/-- A panel that has just been started. -/
def start (conf_file : Option FtpConf) : Ftp := ⟨[], none, conf_file⟩

def readUser (db : Store) (f : Ftp) (o : String) : Ftp × Js Unit :=
  match db.users.get? o with
  | none => (f, .error .typeError)
  | some user =>
    (if user.ftp_access.truthy then { f with allowedUsers := f.allowedUsers ++ [user.name] } else f, .ok ())

def readConfigOnce (f : Ftp) (db : Store) : Ftp × Js (Option String) :=
  match f.conf_str with
  | some _ => (f, .ok none)
  | none =>
    match f.conf_file with
    | none => (f, .ok (some "FTP config file does not exists."))
    | some conf =>
      match db.getUsersByPlanName 10000000 unlimitedPlanName with
      | .error e => (f, .error e)
      | .ok users =>
        match Collect.runAll (readUser db) users f with
        | (f', .error e) => (f', .error e)
        | (f', .ok ()) => ({ f' with conf_str := some conf }, .ok none)

/-- The text in memory is left as it was when the server is not restarted. -/
def saveConfig (f : Ftp) (restart : Option String) : Ftp × Js (Option String) :=
  match f.conf_str with
  | none => (f, .error .typeError)
  | some conf =>
    let new_cfg := conf.allow f.allowedUsers
    if new_cfg = conf then (f, .ok none)
    else match restart with
      | some err => ({ f with conf_file := some new_cfg }, .ok (some err))
      | none => ({ f with conf_file := some new_cfg, conf_str := some new_cfg }, .ok none)

def allowUser (f : Ftp) (db : Store) (user_name : String) (restart : Option String) :
    (Ftp × Store) × Js (Option String) :=
  match db.users.get? user_name with
  | none => ((f, db), .ok (some ("UserUnknown|: " ++ user_name)))
  | some user =>
    match f.readConfigOnce db with
    | (f', .error e) => ((f', db), .error e)
    | (f', .ok (some err)) => ((f', db), .ok (some err))
    | (f', .ok none) =>
      if user.ftp_access.truthy then
        let r := f'.saveConfig restart
        ((r.1, db), r.2)
      else
        let allowedUsers :=
          if user_name ∈ f'.allowedUsers then f'.allowedUsers else f'.allowedUsers ++ [user_name]
        let r := { f' with allowedUsers := allowedUsers }.saveConfig restart
        ((r.1, db.setUser user_name (user.setFtpAccess true)), r.2)

def denyUser (f : Ftp) (db : Store) (user_name : String) (restart : Option String) :
    (Ftp × Store) × Js (Option String) :=
  match db.users.get? user_name with
  | none => ((f, db), .ok (some ("UserUnknown|: " ++ user_name)))
  | some user =>
    match f.readConfigOnce db with
    | (f', .error e) => ((f', db), .error e)
    | (f', .ok (some err)) => ((f', db), .ok (some err))
    | (f', .ok none) =>
      if user.ftp_access.truthy then
        let f' := { f' with allowedUsers := f'.allowedUsers.erase user_name }
        let denied := user.setFtpAccess false
        match (db.setUser user_name denied).updateUser user_name denied with
        | (db', .error e) => ((f', db'), .error e)
        | (db', .ok _) =>
          let r := f'.saveConfig restart
          ((r.1, db'), r.2)
      else
        let r := f'.saveConfig restart
        ((r.1, db), r.2)

end Ftp
end JXPanel

import JXPanel.Value
import JXPanel.Paths

namespace JXPanel
set_option autoImplicit true

/-- What a handler of the file manager asks the operating system for. -/
inductive FileOp
  | existsSync (path : String)
  | lstat (path : String)
  | stat (path : String)
  | readdir (path : String)
  | readFile (path : String)
  | writeFile (path data : String)
  | mkdir (path : String)
  | rmdir (path : String)
  | unlink (path : String)
  | rename (path pathTo : String)
  | chmod (mode path : String)
  | chown (uid gid : Nat) (path : String)
  | zip (location cwd path : String)
deriving DecidableEq

/-- The files as a handler finds them. The entries of a directory have names of their own. -/
structure Files where
  present : String → Bool
  isDirectory : String → Bool
  readdir : String → Option (List String)
  readFile : String → Option String
  fails : FileOp → Bool
  cmdOut : FileOp → Option String
  names : ∀ p l, readdir p = some l → ∀ n ∈ l, Paths.moves n.toList = [.into n.toList]

/-- The logged-in user as the handlers see him. His home is an absolute path. -/
structure Session where
  home : String
  uid : Nat
  gid : Nat

/-- The fields of a request. -/
structure FileParams where
  up : JsVal
  down : JsVal
  name : JsVal
  opt : JsVal
  src : JsVal
  to_ : JsVal
  id : JsVal
  tp : JsVal
  fn : JsVal

/-- The operations of a handler and what it sends back. -/
abbrev Handled := List FileOp × Js JsVal

def sep : String := "/"

/-- `v == s` for a string on the right. -/
def looseEq (v : JsVal) (s : String) : Bool :=
  match v with
  | .undefined => false
  | .null => false
  | .bool b => JsVal.strictEq (.num (.int (if b then 1 else 0))) (.num (JsVal.toNumber (.str s)))
  | .num n => JsVal.strictEq (.num n) (.num (JsVal.toNumber (.str s)))
  | v => decide (v.toKey = s)

def hasDots (s : String) : Bool := decide (['.', '.'] <:+: s.toList)

/-- `!params.up || !params.up.indexOf || params.up.indexOf("..") >= 0`: of an array the test
looks at the items, and an object has no such method even if it has such a field. -/
def refused (up : JsVal) : Js Bool :=
  match up with
  | .str s => .ok (decide (s = "") || hasDots s)
  | .arr l => .ok (l.any fun v => v.strictEq (.str ".."))
  | .obj fs => if (prop (Dict.ofList fs) "indexOf").truthy then .error .typeError else .ok true
  | _ => .ok true

/-- A text of `form_lang` stands for its label. -/
def accessDenied : JsVal := .obj [("err", .str "Access Denied"), ("relogin", .bool true)]

def reloadError (label : String) : JsVal :=
  .obj [("err", .str label), ("relogin", .bool false), ("reloadTree", .bool true)]

def errorOf (err : JsVal) : JsVal := .obj [("err", err)]

def done : JsVal := .obj [("done", .bool true)]

/-- The exception of a failed operation. -/
def failure : JsVal := .obj []

/-- A request with its parameter `up` tested, and the path behind the home made of it. -/
def guardedBy (up : JsVal) (body : Handled) : Handled :=
  match refused up with
  | .error f => ([], .error f)
  | .ok true => ([], .ok accessDenied)
  | .ok false => body

/-- The end of the handlers that mark a file: `markFile` returns the output of a failed command,
which has no field `out`. -/
def marked (files : Files) (user : Session) (ops : List FileOp) (path : String) : Handled :=
  let op := FileOp.chown user.uid user.gid path
  match files.cmdOut op with
  | some out => (ops ++ [op], .ok (if out = "" then done else errorOf .undefined))
  | none => (ops ++ [op], .ok done)

/-- `home + path.sep + text`. -/
def Session.path (user : Session) (text : String) : String := user.home ++ sep ++ text

/-- The path of `getFileInfo` and `getFiles`. -/
def Session.location (user : Session) (up : JsVal) : String :=
  if looseEq up "" || looseEq up "#" then user.home else user.path up.toKey

def getFileInfo (files : Files) (user : Session) (params : FileParams) : Handled :=
  guardedBy params.up
    (let op := FileOp.lstat (user.location params.up)
    ([op], .ok (if files.fails op then .obj [("err", failure), ("relogin", .bool false)]
      else .obj [("info", .obj []), ("id", params.id)])))

/-- A file name without its extension, and the extension. -/
def splitExt (name : String) : String × String :=
  let cs := name.toList
  let ext := (cs.reverse.takeWhile (· ≠ '.')).reverse
  if ext.length + 1 < cs.length then
    (String.ofList (cs.take (cs.length - ext.length - 1)), String.ofList ('.' :: ext))
  else (name, "")

def fileNode (files : Files) (loc name : String) : JsVal :=
  if files.isDirectory (loc ++ sep ++ name) then
    .obj [("isParent", .bool true), ("name", .str name)]
  else .obj [("fullname", .str name), ("name", .str (splitExt name).1),
    ("ext", .str (splitExt name).2)]

def getFiles (files : Files) (user : Session) (params : FileParams) : Handled :=
  guardedBy params.up
    (let loc := user.location params.up
    match files.readdir loc with
    | none => ([.readdir loc], .ok (.obj [("err", failure), ("relogin", .bool false)]))
    | some names =>
      let top := if looseEq params.up "" || looseEq params.up "#" then []
        else [.obj [("name", .str ".."), ("isParent", .bool true)]]
      (.readdir loc :: names.map (fun name => .stat (loc ++ sep ++ name)),
        .ok (.obj [("nodes", .arr (top ++ names.map (fileNode files loc))), ("id", params.id)])))

def getFile (files : Files) (user : Session) (params : FileParams) : Handled :=
  guardedBy params.up
    (let loc := user.path params.up.toKey
    if !files.present loc then ([.stat loc], .error (.thrown "ENOENT"))
    else if files.isDirectory loc then ([.stat loc], .ok (.obj [("skip", .bool true)]))
    else match files.readFile loc with
      | none => ([.stat loc, .existsSync loc, .readFile loc], .ok (errorOf failure))
      | some src => ([.stat loc, .existsSync loc, .readFile loc],
        .ok (.obj [("source", .str src), ("id", params.id), ("tp", params.tp), ("fn", params.fn),
          ("loc", params.up)])))

section Unescape

/-- The number that a text of hexadecimal digits denotes. -/
def hexOf (cs : List Char) : Option Nat :=
  match readDigits 16 cs 0 0 with
  | (n, cnt) => if cnt = cs.length then some n else none

/-- A lone surrogate becomes the replacement character, as it does in a path. -/
def charOf (n : Nat) : Char := if n.isValidChar then Char.ofNat n else Char.ofNat 0xFFFD

/-- What stands behind a percent sign: the character and how many characters denote it. -/
def escapeOf : List Char → Option (Char × Nat)
  | 'u' :: cs => if 4 ≤ cs.length then (hexOf (cs.take 4)).map fun n => (charOf n, 5) else none
  | cs => if 2 ≤ cs.length then (hexOf (cs.take 2)).map fun n => (charOf n, 2) else none

def unescapeFrom : Nat → List Char → List Char
  | _, [] => []
  | skip + 1, _ :: cs => unescapeFrom skip cs
  | 0, c :: cs =>
    if c = '%' then
      match escapeOf cs with
      | some (d, cnt) => d :: unescapeFrom cnt cs
      | none => c :: unescapeFrom 0 cs
    else c :: unescapeFrom 0 cs

def unescape (s : String) : String := String.ofList (unescapeFrom 0 s.toList)

end Unescape

def saveFile (files : Files) (user : Session) (params : FileParams) : Handled :=
  guardedBy params.up
    (let loc := user.path params.up.toKey
    let op := FileOp.writeFile loc (unescape params.src.toKey)
    if !files.present loc then ([.existsSync loc], .ok (reloadError "FileNotFound"))
    else if files.fails op then ([.existsSync loc, op], .ok (errorOf failure))
    else marked files user [.existsSync loc, op] loc)

/-- A text without the slash that it starts with. -/
def withoutSlash (s : String) : String :=
  if s.toList.head? = some '/' then String.ofList s.toList.tail else s

/-- `up` without the slash it starts with, in `addFileFolder`. -/
def addFileUp (up : JsVal) : Js String :=
  match up with
  | .str s => .ok (withoutSlash s)
  | .arr (v :: l) =>
    if looseEq v "/" then if l.isEmpty then .ok "" else .error .typeError else .ok up.toKey
  | v => .ok v.toKey

def addFileFolder (files : Files) (user : Session) (params : FileParams) : Handled :=
  guardedBy params.up
    (match addFileUp params.up with
    | .error f => ([], .error f)
    | .ok up =>
      let loc := user.path up
      let target := loc ++ sep ++ params.name.toKey
      let op := if looseEq params.opt "File" then FileOp.writeFile target "" else .mkdir target
      if !files.present loc then ([.existsSync loc], .ok (reloadError "FileNotFound"))
      else if files.present target then
        ([.existsSync loc, .existsSync target], .ok (errorOf (.str "FileExists")))
      else if files.fails op then
        ([.existsSync loc, .existsSync target, op], .ok (errorOf failure))
      else marked files user [.existsSync loc, .existsSync target, op] target)

def removeFileFolder (files : Files) (user : Session) (params : FileParams) : Handled :=
  guardedBy params.up
    (let loc := user.path params.up.toKey
    let ops := [FileOp.existsSync loc, .lstat loc]
    if !files.present loc then ([.existsSync loc], .ok (reloadError "FileNotFound"))
    else if files.isDirectory loc then
      match files.readdir loc with
      | none => (ops ++ [.readdir loc], .ok (errorOf failure))
      | some (_ :: _) => (ops ++ [.readdir loc],
        .ok (errorOf (.obj [("Message", .str "FolderNotEmpty")])))
      | some [] => (ops ++ [.readdir loc, .rmdir loc],
        .ok (if files.fails (.rmdir loc) then errorOf failure else done))
    else (ops ++ [.unlink loc], .ok (if files.fails (.unlink loc) then errorOf failure else done)))

def renameFileFolder (files : Files) (user : Session) (params : FileParams) : Handled :=
  guardedBy params.up
    (let loc := user.path params.up.toKey
    let locTo := user.path params.down.toKey
    let op := FileOp.rename loc locTo
    if !files.present loc then ([.existsSync loc], .ok (reloadError "FileNotFound"))
    else if files.present locTo then
      ([.existsSync loc, .existsSync locTo], .ok (reloadError "FileExists"))
    else if files.fails op then
      ([.existsSync loc, .existsSync locTo, op], .ok (errorOf failure))
    else marked files user [.existsSync loc, .existsSync locTo, op] locTo)

/-- `up` without the slash it starts with, in `downloadFile` and `chFile`. -/
def stripSlash (up : JsVal) : Js String :=
  match up with
  | .str s => .ok (withoutSlash s)
  | .arr (v :: _) => if looseEq v "/" then .error .typeError else .ok up.toKey
  | v => .ok v.toKey

def downloads (user : Session) : String := user.path "__panel_downloads"

/-- The name that the panel gives to an archive, made of a time and a number. -/
structure ZipName where
  text : String
  plain : ¬ ['.', '.'] <:+: text.toList

/-- The archive is made by a command that runs in the home. -/
def downloadFile (zip_name : ZipName) (files : Files) (user : Session) (params : FileParams) :
    Handled :=
  guardedBy params.up
    (let ops := if files.present (downloads user) then [FileOp.existsSync (downloads user)]
      else [.existsSync (downloads user), .mkdir (downloads user)]
    match stripSlash params.up with
    | .error f => (ops, .error f)
    | .ok loc =>
      let zip_location := downloads user ++ sep ++ zip_name.text
      let op := FileOp.zip zip_location user.home loc
      let ops := ops ++ [.existsSync (user.path loc)]
      if !files.present (user.path loc) then (ops, .ok (reloadError "FileNotFound"))
      else match files.cmdOut op with
        | some out => (ops ++ [op], .ok (errorOf (.str ("Error" ++ out))))
        | none =>
          (ops ++ [op, .existsSync zip_location],
            .ok (if files.present zip_location then
              .obj [("link", .str ("/" ++ zip_name.text)), ("name", .str zip_name.text)]
            else errorOf (.str "Output:"))))

def chFile (files : Files) (user : Session) (params : FileParams) : Handled :=
  guardedBy params.up
    (match stripSlash params.up with
    | .error f => ([], .error f)
    | .ok loc =>
      let target := user.path loc
      let op := FileOp.chmod params.to_.toKey target
      if !files.present target then ([.existsSync target], .ok (reloadError "FileNotFound"))
      else match files.cmdOut op with
        | some out => ([.existsSync target, op], .ok (errorOf (.str out)))
        | none => marked files user [.existsSync target, op] target)

/-- A file as it was uploaded: where it was put for the time being, and its name. -/
structure Upload where
  path : String
  name : String

/-- What becomes of an uploaded file. -/
inductive Uploaded
  | addon
  | logo
  | file (ops : List FileOp)

/-- The target of an upload as it is compared and used. -/
def uploadTarget (target : String) : String := withoutSlash (unescape target)

/-- `saveFile` of the uploads. -/
def saveUpload (files : Files) (user : Session) (target : String) (file : Upload) : Uploaded :=
  if uploadTarget target = "__addon__" then .addon
  else if uploadTarget target = "__logo__" then .logo
  else
    let path := user.path (uploadTarget target) ++ sep ++ file.name
    .file [.readFile file.path, .writeFile path ((files.readFile file.path).getD "undefined")]

example : unescape "%2e%2E%u002fa%2" = "../a%2" := by decide

end JXPanel

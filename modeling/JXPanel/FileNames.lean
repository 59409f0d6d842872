import JXPanel.Homes
import JXPanel.Spawner

namespace JXPanel
set_option autoImplicit true

/-- What a validator has against a value: the label of a message and what is put into it. -/
structure Refusal where
  msg : String
  args : List String

def cannotContain : List String := ["./", "/.", ".\\", "\\.", "\n", "\r", "\t"]

def cannotStart : List String := ["/", "\\", " ", ".."]

/-- The validator of file names, which reports the first pattern that it meets. -/
def FileName (val : String) : Except Refusal Unit :=
  match cannotContain.find? fun t => decide (t.toList <:+: val.toList) with
  | some t => .error ⟨"PathCannotContain", [t]⟩
  | none =>
    match cannotStart.find? fun t => decide (t.toList <+: val.toList) with
    | some t => .error ⟨"PathCannotStart", [t]⟩
    | none => .ok ()

structure SSLInfo where
  key : List Char
  crt : List Char

def appGetSSLInfo (app_dir : List Char) (ssl_enabled : Bool) (ssl_crt ssl_key : String) : Option SSLInfo :=
  if ssl_enabled then some { key := Paths.join app_dir ssl_key.toList, crt := Paths.join app_dir ssl_crt.toList }
  else none

structure DomainFiles where
  jx_app_path : String
  ssl : Bool
  ssl_crt : String
  ssl_key : String

structure AppFiles where
  app_dir : List Char
  app_path : List Char
  ssl_info : Option SSLInfo

/-- The part of `appGetOptions` that puts the paths together, for an app of type `custom`. -/
def appGetFiles (user_path : List Char) (domain_name : String) (domain : DomainFiles) : AppFiles :=
  let app_dir := Paths.join user_path domain_name.toList ++ ['/']
  { app_dir
    app_path := Paths.join app_dir domain.jx_app_path.toList
    ssl_info := appGetSSLInfo app_dir domain.ssl domain.ssl_crt domain.ssl_key }

structure CertForm where
  ssl : Bool
  ssl_crt : String
  ssl_key : String
  isRecordUpdating : Option String
  appGetOptions : String → Except String AppFiles
  existsSync : List Char → Bool
  testConfig : Option (Option SSLInfo → Option String)

namespace CertForm

/-- The checks before the one that the file exists, with the options of the app and the file's path. -/
def file (params : CertForm) (val : String) : Except Refusal (AppFiles × List Char) := do
  if params.ssl && decide (val = "") then throw ⟨"ValueRequired", []⟩
  FileName val
  match params.isRecordUpdating with
  | none => throw ⟨"DomainNotFound", []⟩
  | some domain_name =>
    match params.appGetOptions domain_name with
    | .error err => throw ⟨err, []⟩
    | .ok options => return (options, Paths.join options.app_dir val.toList)

/-- The validator of a certificate's file name. -/
def SSLCertFileName (params : CertForm) (val : String) : Except Refusal Unit := do
  let (options, file) ← params.file val
  if !params.existsSync file then throw ⟨"FileDoesNotExist", []⟩
  match params.testConfig with
  | none => return ()
  | some test =>
    if params.ssl then
      match test (appGetSSLInfo options.app_dir true params.ssl_crt params.ssl_key) with
      | some err => throw ⟨"NginxDirectivesInvalid", [err]⟩
      | none => return ()

end CertForm

/-- A path that is a directory or is below it, whatever the working directory is. -/
def StaysIn (dir path : List Char) : Prop := Paths.isAbsolute path = true ∧ Paths.Inside dir path

section Names
variable {val : String} {dir : List Char}

/-- A name that is refused holds, or begins with, the pattern that the message shows. -/
theorem FileName_error {r : Refusal} (h : FileName val = .error r) : ∃ t, r.args = [t] ∧
    (r.msg = "PathCannotContain" ∧ t ∈ cannotContain ∧ t.toList <:+: val.toList ∨
      r.msg = "PathCannotStart" ∧ t ∈ cannotStart ∧ t.toList <+: val.toList) := by
  unfold FileName at h
  split at h
  · rename_i t ht
    cases h
    have hin := List.find?_some ht
    exact ⟨t, rfl, .inl ⟨rfl, List.mem_of_find?_eq_some ht, of_decide_eq_true hin⟩⟩
  · split at h
    · rename_i t ht
      cases h
      have hin := List.find?_some ht
      exact ⟨t, rfl, .inr ⟨rfl, List.mem_of_find?_eq_some ht, of_decide_eq_true hin⟩⟩
    · cases h

theorem FileName_ok_iff : FileName val = .ok () ↔
    (∀ t ∈ cannotContain, ¬ t.toList <:+: val.toList) ∧ ∀ t ∈ cannotStart, ¬ t.toList <+: val.toList := by
  constructor
  · intro h
    unfold FileName at h
    split at h
    · cases h
    · rename_i hcontain
      split at h
      · cases h
      · rename_i hstart
        exact ⟨fun t ht => of_decide_eq_false (Bool.eq_false_iff.2 (List.find?_eq_none.1 hcontain t ht)),
          fun t ht => of_decide_eq_false (Bool.eq_false_iff.2 (List.find?_eq_none.1 hstart t ht))⟩
  · rintro ⟨hcontain, hstart⟩
    cases hr : FileName val with
    | ok => rfl
    | error r =>
      obtain ⟨t, -, ⟨-, ht, hin⟩ | ⟨-, ht, hin⟩⟩ := FileName_error hr
      · exact absurd hin (hcontain t ht)
      · exact absurd hin (hstart t ht)

/-- The validator that reports and the one that only answers are the same. -/
theorem FileName_accepts : FileName val = .ok () ↔ fileNameAccepted val = true := by
  rw [FileName_ok_iff, fileNameAccepted, Bool.and_eq_true, List.all_eq_true, List.all_eq_true]
  apply and_congr
  · exact forall₂_congr fun t ht => by simp
  · exact forall₂_congr fun t ht => by simp

theorem no_up_of_FileName (h : FileName val = .ok ()) : Paths.Move.up ∉ Paths.moves val.toList := by
  obtain ⟨hcontain, hstart⟩ := FileName_ok_iff.1 h
  exact Paths.no_up_of_no_dot_behind (hstart ".." (by decide)) (hcontain "/." (by decide))

theorem staysIn_join (hdir : Paths.isAbsolute dir = true) (h : FileName val = .ok ()) :
    StaysIn dir (Paths.join dir val.toList) := Paths.inside_join hdir (no_up_of_FileName h)

theorem appGetSSLInfo_staysIn {ssl : Bool} {crt key : String} {i : SSLInfo} (hdir : Paths.isAbsolute dir = true)
    (hcrt : FileName crt = .ok ()) (hkey : FileName key = .ok ()) (h : appGetSSLInfo dir ssl crt key = some i) :
    StaysIn dir i.key ∧ StaysIn dir i.crt := by
  unfold appGetSSLInfo at h
  split at h
  · cases h
    exact ⟨staysIn_join hdir hkey, staysIn_join hdir hcrt⟩
  · cases h

theorem CertForm.file_ok {params : CertForm} {options : AppFiles} {path : List Char}
    (h : params.file val = .ok (options, path)) :
    FileName val = .ok () ∧ path = Paths.join options.app_dir val.toList := by
  unfold CertForm.file at h
  dsimp only at h
  split at h
  · cases h
  · obtain ⟨⟨⟩, hname, h⟩ := Collect.bind_ok.1 h
    refine ⟨hname, ?_⟩
    split at h
    · cases h
    · split at h
      · cases h
      · cases h
        rfl

theorem appGetFiles_absolute (hhome : Paths.isAbsolute dir = true) (domain_name : String) (domain : DomainFiles) :
    Paths.isAbsolute (appGetFiles dir domain_name domain).app_dir = true := by
  have hjoin := (Paths.join_absolute hhome domain_name.toList).1
  change Paths.isAbsolute (Paths.join dir domain_name.toList ++ ['/']) = true
  cases hp : Paths.join dir domain_name.toList with
  | nil => rfl
  | cons c path =>
    rw [hp] at hjoin
    exact hjoin

end Names

/-- Where a home is absolute, so are the paths below it. -/
theorem getUserPath_absolute {s : Store} {apps_folder path : List Char} {p u : String}
    (happs : Paths.isAbsolute apps_folder = true) (h : s.getUserPath apps_folder p u = .ok path) :
    Paths.isAbsolute path = true := by
  obtain ⟨arr, -, rfl⟩ := Store.getUserPath_ok h
  cases apps_folder with
  | nil => cases happs
  | cons c apps_folder => exact happs

/-- A file name that the validator lets pass stays in any directory that it is joined to. So do the
files that the certificate's validator looks up, and below an apps folder the app's file and certificate
stay in the directory of the domain. -/
theorem accepted_files_stay {dir : List Char} (hdir : Paths.isAbsolute dir = true) :
    (∀ val, FileName val = .ok () → StaysIn dir (Paths.join dir val.toList)) ∧
    (∀ (params : CertForm) (val : String) (options : AppFiles) (path : List Char),
      params.file val = .ok (options, path) → options.app_dir = dir → StaysIn dir path) ∧
    ∀ (s : Store) (plan owner : String) (user_path : List Char), s.getUserPath dir plan owner = .ok user_path →
      ∀ (domain_name : String) (domain : DomainFiles), FileName domain.jx_app_path = .ok () →
        FileName domain.ssl_crt = .ok () → FileName domain.ssl_key = .ok () →
          ∀ files, files = appGetFiles user_path domain_name domain → StaysIn files.app_dir files.app_path ∧
            ∀ i, files.ssl_info = some i → StaysIn files.app_dir i.key ∧ StaysIn files.app_dir i.crt := by
  refine ⟨fun val h => staysIn_join hdir h, ?_, ?_⟩
  · rintro params val options path h rfl
    obtain ⟨hname, rfl⟩ := CertForm.file_ok h
    exact staysIn_join hdir hname
  · rintro s plan owner user_path hhome domain_name domain hpath hcrt hkey files rfl
    have happ := appGetFiles_absolute (getUserPath_absolute hdir hhome) domain_name domain
    exact ⟨staysIn_join happ hpath, fun i hi => appGetSSLInfo_staysIn happ hcrt hkey hi⟩

theorem accepted_files_stay_sample : StaysIn "/srv/ann/x.com".toList (Paths.join "/srv/ann/x.com".toList "lib//a.. x\\y".toList) :=
  (@accepted_files_stay "/srv/ann/x.com".toList rfl).1 "lib//a.. x\\y"
    (FileName_ok_iff.2 ⟨by decide, by decide⟩)

end JXPanel

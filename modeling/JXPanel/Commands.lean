import JXPanel.Shell
import JXPanel.Homes
import JXPanel.Confinement

namespace JXPanel
set_option autoImplicit true

open Shell

/-- `exports.addSystemUser`: the command that makes an account with its password. -/
def addSystemUserCommand (loc username password : String) : String :=
  "/usr/sbin/useradd -g jxman -d " ++ loc ++ " -M -s /sbin/nologin " ++ username ++
    (";echo \"" ++ username ++ ":" ++ password ++ "\" | /usr/sbin/chpasswd -c SHA256")

def updatePasswordCommand (username password : String) : String :=
  "echo \"" ++ username ++ ":" ++ password ++ "\" | /usr/sbin/chpasswd -c SHA256"

/-- `exports.parseUserArgs`: the command that prints the arguments it is called with. -/
def parseUserArgsCommand (execPath args_str : String) : String :=
  "\"" ++ execPath ++ "\" -e \"console.log(JSON.stringify(process.argv.slice(1)))\" " ++ args_str

/-- The command that an operation is, if it is one. -/
def FileOp.command : FileOp → Option String
  | .chmod mode path => some ("chmod " ++ mode ++ " " ++ path)
  | .chown uid gid path => some ("chown -R " ++ toString uid ++ ":" ++ toString gid ++ " " ++ path)
  | .zip location _ path => some ("zip -r " ++ location ++ " " ++ path)
  | _ => none

def FileOp.argv : FileOp → List String
  | .chmod mode path => ["chmod", mode, path]
  | .chown uid gid path => ["chown", "-R", toString uid ++ ":" ++ toString gid, path]
  | .zip location _ path => ["zip", "-r", location, path]
  | _ => []

/-- `length`, in code units. -/
def jsLength (cs : List Char) : Nat := (cs.map fun c => if c.toNat < 0x10000 then 1 else 2).sum

/-- The validator of passwords: five code units, white space at the ends apart, twice the same. -/
def passwordAccepted (val repeated : String) : Bool :=
  decide (5 ≤ jsLength (trim val.toList)) && decide (repeated = val)

def words (l : List String) : List Token := l.map fun s => .word s.toList

/-- The name and the password go to the standard input of `chpasswd`. -/
def chpasswdTokens (username password : String) : List Token :=
  words ["echo", username ++ ":" ++ password] ++
    .op '|' :: words ["/usr/sbin/chpasswd", "-c", "SHA256"]

def useraddTokens (loc username : String) : List Token :=
  words ["/usr/sbin/useradd", "-g", "jxman", "-d", loc, "-M", "-s", "/sbin/nologin", username]

/-- The shell reads the command of an operation as it is meant. -/
def FileOp.AsData (op : FileOp) : Prop :=
  ∀ cmd, op.command = some cmd → tokens cmd.toList = .ok (words op.argv)

section Quoting

theorem not_special_of_userNameChar {c : Char} (h : isUserNameChar c = true) : c ∉ specials := by
  intro hc
  have hall : specials.all (fun d => !isUserNameChar d) = true := by decide
  have hno := List.all_eq_true.1 hall c hc
  rw [h] at hno
  cases hno

theorem userName_not_special {username : String} (h : userNameAccepted username = true) :
    username.toList ≠ [] ∧ ∀ c ∈ username.toList, c ∉ specials := by
  simp only [userNameAccepted, Bool.and_eq_true, decide_eq_true_iff] at h
  obtain ⟨⟨hchars, -⟩, hne⟩ := h
  refine ⟨fun hnil => hne (String.toList_eq_nil_iff.1 hnil), fun c hc => ?_⟩
  exact not_special_of_userNameChar (List.all_eq_true.1 hchars c hc)

def chpasswdRest : List Char := " | /usr/sbin/chpasswd -c SHA256".toList

/-- The name and the password between double quotes. -/
theorem chpasswd_iff {username : String} (h : userNameAccepted username = true)
    (password : String) :
    lex ("echo \"".toList ++ (username.toList ++ ':' :: password.toList) ++ '"' :: chpasswdRest)
        .plain none = .ok (chpasswdTokens username password) ↔
      dquotable password.toList = true := by
  obtain ⟨-, hname⟩ := userName_not_special h
  have hpre : ∀ c ∈ username.toList ++ [':'], c ∉ specials := by
    intro c hc
    rcases List.mem_append.1 hc with hc | hc
    · exact hname c hc
    · rw [List.mem_singleton.1 hc]
      decide
  have htext : dquotable (username.toList ++ ':' :: password.toList) =
      dquotable password.toList := by
    have happ := dquotable_append hpre password.toList
    rwa [List.append_assoc] at happ
  have hecho : "echo \"".toList ++ (username.toList ++ ':' :: password.toList) ++
      '"' :: chpasswdRest = "echo".toList ++ ' ' :: ('"' ::
        (username.toList ++ ':' :: password.toList ++ '"' :: chpasswdRest)) := by
    simp
  have hstop : Stops chpasswdRest := by
    intro c hc
    rw [← Option.some.inj hc]
    decide
  have hopen : lex ('"' :: (username.toList ++ ':' :: password.toList ++ '"' :: chpasswdRest))
      .plain none = lex (username.toList ++ ':' :: password.toList ++ '"' :: chpasswdRest)
        .double (some []) := rfl
  have hrest : lex chpasswdRest .plain (some (username.toList ++ ':' :: password.toList)) =
      .ok (.word (username.toList ++ ':' :: password.toList) ::
        .op '|' :: words ["/usr/sbin/chpasswd", "-c", "SHA256"]) := by
    have hpipe : lex "| /usr/sbin/chpasswd -c SHA256".toList .plain none =
        .ok (.op '|' :: words ["/usr/sbin/chpasswd", "-c", "SHA256"]) := rfl
    have hblank : ∀ w, lex chpasswdRest .plain (some w) =
        emit [.word w] (lex "| /usr/sbin/chpasswd -c SHA256".toList .plain none) := fun _ => rfl
    rw [hblank, hpipe]
    rfl
  have hword := lex_double_iff hstop (by decide) (by decide)
    (username.toList ++ ':' :: password.toList) []
    (.op '|' :: words ["/usr/sbin/chpasswd", "-c", "SHA256"])
  rw [List.nil_append, htext, hrest] at hword
  have htokens : chpasswdTokens username password = [.word "echo".toList] ++
      (.word (username.toList ++ ':' :: password.toList) ::
        .op '|' :: words ["/usr/sbin/chpasswd", "-c", "SHA256"]) := by
    simp [chpasswdTokens, words]
  rw [hecho, lex_bare_blank (by decide), hopen, htokens, emit_eq_ok, hword]
  exact and_iff_left rfl

theorem updatePasswordCommand_toList (username password : String) :
    (updatePasswordCommand username password).toList = "echo \"".toList ++
      (username.toList ++ ':' :: password.toList) ++ '"' :: chpasswdRest := by
  have hend : "\" | /usr/sbin/chpasswd -c SHA256".toList = '"' :: chpasswdRest := rfl
  have hcolon : ":".toList = [':'] := rfl
  simp only [updatePasswordCommand, String.toList_append, hend, hcolon, List.append_assoc,
    List.cons_append, List.nil_append]

theorem updatePassword_iff {username : String} (h : userNameAccepted username = true)
    (password : String) :
    tokens (updatePasswordCommand username password).toList =
        .ok (chpasswdTokens username password) ↔ dquotable password.toList = true := by
  rw [tokens, updatePasswordCommand_toList]
  exact chpasswd_iff h password

theorem addSystemUser_iff {loc username : String} (hloc : bareText false loc.toList = true)
    (h : userNameAccepted username = true) (password : String) :
    tokens (addSystemUserCommand loc username password).toList =
        .ok (useraddTokens loc username ++ .op ';' :: chpasswdTokens username password) ↔
      dquotable password.toList = true := by
  obtain ⟨hne, hname⟩ := userName_not_special h
  have hcmd : (addSystemUserCommand loc username password).toList =
      blanked ["/usr/sbin/useradd".toList, "-g".toList, "jxman".toList, "-d".toList, loc.toList,
        "-M".toList, "-s".toList, "/sbin/nologin".toList] ++
      (username.toList ++ ';' :: (updatePasswordCommand username password).toList) := by
    have hecho : ";echo \"".toList = ';' :: "echo \"".toList := rfl
    have hadd : "/usr/sbin/useradd -g jxman -d ".toList =
        blanked ["/usr/sbin/useradd".toList, "-g".toList, "jxman".toList, "-d".toList] := rfl
    have hopts : " -M -s /sbin/nologin ".toList =
        ' ' :: blanked ["-M".toList, "-s".toList, "/sbin/nologin".toList] := rfl
    have hparts : ∀ a l b u c : String, (a ++ l ++ b ++ u ++ c).toList =
        a.toList ++ (l.toList ++ (b.toList ++ (u.toList ++ c.toList))) := by
      intro a l b u c
      simp
    have hrest : ∀ e c : String, e.toList = ';' :: c.toList → ∀ u p f : String,
        (e ++ u ++ ":" ++ p ++ f).toList = ';' :: (c ++ u ++ ":" ++ p ++ f).toList := by
      intro e c he u p f
      simp [he]
    apply (hparts "/usr/sbin/useradd -g jxman -d " loc " -M -s /sbin/nologin " username _).trans
    rw [hadd, hopts, hrest _ _ hecho]
    simp only [updatePasswordCommand, blanked, List.flatMap_cons, List.flatMap_nil,
      List.append_assoc, List.cons_append, List.nil_append, List.append_nil]
  rw [updatePasswordCommand_toList] at hcmd
  have hbare : ∀ w ∈ ["/usr/sbin/useradd".toList, "-g".toList, "jxman".toList, "-d".toList,
      loc.toList, "-M".toList, "-s".toList, "/sbin/nologin".toList], bareText false w = true := by
    have hwords : ∀ w ∈ ["/usr/sbin/useradd", "-g", "jxman", "-d", "-M", "-s", "/sbin/nologin"],
        bareText false w.toList = true := by decide +kernel
    simp only [List.forall_mem_cons] at hwords ⊢
    obtain ⟨h₁, h₂, h₃, h₄, h₅, h₆, h₇, -⟩ := hwords
    refine ⟨h₁, h₂, h₃, h₄, hloc, h₅, h₆, h₇, ?_⟩
    intro w hw
    cases hw
  have hout : useraddTokens loc username ++ .op ';' :: chpasswdTokens username password =
      ["/usr/sbin/useradd".toList, "-g".toList, "jxman".toList, "-d".toList, loc.toList,
        "-M".toList, "-s".toList, "/sbin/nologin".toList].map Token.word ++
      ([.word username.toList, .op ';'] ++ chpasswdTokens username password) := by
    simp [useraddTokens, words]
  rw [tokens, hcmd, lex_blanked hbare, hout, emit_eq_ok,
    lex_bare_operator (bareText_word hne hname) (by decide) (fun _ => rfl), emit_eq_ok]
  exact chpasswd_iff h password

def argvScript : String := "console.log(JSON.stringify(process.argv.slice(1)))"

theorem parseUserArgs_iff {execPath : String} (h : dquotable execPath.toList = true)
    (args_str : String) :
    (∃ ws : List (List Char), tokens (parseUserArgsCommand execPath args_str).toList =
        .ok (words [execPath, "-e", argvScript] ++ ws.map .word)) ↔
      quiet args_str.toList .plain false = true := by
  have hcmd : (parseUserArgsCommand execPath args_str).toList =
      '"' :: (execPath.toList ++ '"' :: (" -e \"".toList ++ (argvScript.toList ++
        '"' :: ' ' :: args_str.toList))) := by
    simp [parseUserArgsCommand, argvScript]
  have hopen : ∀ cs, lex ('"' :: cs) .plain none = lex cs .double (some []) := fun _ => rfl
  have hdash : ∀ w cs, lex (" -e \"".toList ++ cs) .plain (some w) =
      emit [.word w] (emit [.word "-e".toList] (lex cs .double (some []))) := fun _ _ => rfl
  have hblank : ∀ w cs, lex (' ' :: cs) .plain (some w) = emit [.word w] (lex cs .plain none) :=
    fun _ _ => rfl
  have hout : ∀ ws : List (List Char), words [execPath, "-e", argvScript] ++ ws.map .word =
      [.word ([] ++ execPath.toList)] ++ ([.word "-e".toList] ++
        ([.word ([] ++ argvScript.toList)] ++ ws.map .word)) := fun _ => rfl
  rw [tokens, hcmd, hopen, lex_double_kept h, hdash, lex_double_kept rfl, hblank]
  simp only [hout, emit_eq_ok]
  exact lex_words_iff _ .plain none

section Operations

/-- A command that is its words with blanks between them. -/
theorem asData_iff {op : FileOp} {cmd : String} {w : List Char} {l : List (List Char)}
    (hcmd : op.command = some cmd) (hargv : op.argv.map String.toList = w :: l)
    (hline : cmd.toList = line (w :: l)) : op.AsData ↔ bareLine (w :: l) = true := by
  have hwords : words op.argv = (w :: l).map .word := by
    rw [← hargv, List.map_map]
    rfl
  rw [← tokens_line_iff, ← hline, ← hwords]
  constructor
  · intro h
    exact h cmd hcmd
  · intro h cmd' hcmd'
    rw [← Option.some.inj (hcmd.symm.trans hcmd')]
    exact h

theorem chmod_asData_iff (mode path : String) :
    (FileOp.chmod mode path).AsData ↔
      bareText false mode.toList = true ∧ lastText false path.toList = true := by
  have hcmd : bareText false "chmod".toList = true := by decide
  have hline : bareLine ["chmod".toList, mode.toList, path.toList] =
      (bareText false "chmod".toList && (bareText false mode.toList &&
        lastText false path.toList)) := rfl
  rw [asData_iff (w := "chmod".toList) (l := [mode.toList, path.toList]) rfl rfl (by simp [line]),
    hline, hcmd, Bool.true_and, Bool.and_eq_true_iff]

theorem zip_asData_iff (location cwd path : String) :
    (FileOp.zip location cwd path).AsData ↔
      bareText false location.toList = true ∧ lastText false path.toList = true := by
  have hcmd : bareText false "zip".toList = true := by decide
  have hopt : bareText false "-r".toList = true := by decide
  have hline : bareLine ["zip".toList, "-r".toList, location.toList, path.toList] =
      (bareText false "zip".toList && (bareText false "-r".toList &&
        (bareText false location.toList && lastText false path.toList))) := rfl
  rw [asData_iff (w := "zip".toList) (l := ["-r".toList, location.toList, path.toList]) rfl rfl
    (by simp [line]), hline, hcmd, hopt, Bool.true_and, Bool.true_and, Bool.and_eq_true_iff]

/-- The owner and the group of a marked file are numbers. -/
theorem chown_asData (uid gid : Nat) {path : String} (h : lastText false path.toList = true) :
    (FileOp.chown uid gid path).AsData := by
  have hnum : ∀ n : Nat, ∀ c ∈ (toString n).toList, c ∉ specials := by
    intro n c hc
    rw [Nat.toString_eq_repr, Nat.toList_repr] at hc
    apply not_special_of_userNameChar
    have hdigit := Nat.isDigit_of_mem_toDigits (by decide) (by decide) hc
    simp [isUserNameChar, Char.isAlphanum, hdigit]
  have hids : bareText false (toString uid ++ ":" ++ toString gid).toList = true := by
    apply bareText_word
    · simp
    · intro c hc
      rw [String.toList_append, String.toList_append] at hc
      rcases List.mem_append.1 hc with hc | hc
      · rcases List.mem_append.1 hc with hc | hc
        · exact hnum uid c hc
        · rw [List.mem_singleton.1 hc]
          decide
      · exact hnum gid c hc
  have hcmd : bareText false "chown".toList = true := by decide
  have hopt : bareText false "-R".toList = true := by decide
  have hline : bareLine ["chown".toList, "-R".toList, (toString uid ++ ":" ++ toString gid).toList,
      path.toList] = (bareText false "chown".toList && (bareText false "-R".toList &&
        (bareText false (toString uid ++ ":" ++ toString gid).toList &&
          lastText false path.toList))) := rfl
  rw [asData_iff (w := "chown".toList) (l := ["-R".toList,
    (toString uid ++ ":" ++ toString gid).toList, path.toList]) rfl rfl (by simp [line]), hline,
    hcmd, hopt, hids, h]
  rfl

theorem asData_of_no_command {op : FileOp} (h : op.command = none) : op.AsData := by
  intro cmd hcmd
  rw [h] at hcmd
  cases hcmd

/-- `chFile` changes the mode of what it finds, and marks it. -/
theorem chFile_asData_iff {up : String} (hacc : refused (.str up) = .ok false) (user : Session)
    {params : FileParams} (hup : params.up = .str up) :
    (∀ files, ∀ op ∈ (chFile files user params).1, op.AsData) ↔
      bareText false params.to_.toKey.toList = true ∧
        lastText false (user.path (withoutSlash up)).toList = true := by
  have hstrip : stripSlash params.up = .ok (withoutSlash up) := by rw [hup]; rfl
  rw [← hup] at hacc
  rw [← chmod_asData_iff]
  constructor
  · intro h
    apply h (constFiles true)
    rw [chFile, guardedBy_accepted hacc, hstrip]
    simp [constFiles, marked]
  · intro h files op hop
    obtain ⟨-, hpath⟩ := (chmod_asData_iff _ _).1 h
    have hexists : (FileOp.existsSync (user.path (withoutSlash up))).AsData :=
      asData_of_no_command rfl
    rw [chFile, guardedBy_accepted hacc, hstrip] at hop
    dsimp only at hop
    split at hop
    · rwa [List.mem_singleton.1 hop]
    · split at hop
      · rcases List.mem_pair.1 hop with rfl | rfl
        · exact hexists
        · exact h
      · rw [marked_ops, List.mem_append, List.mem_pair, List.mem_singleton] at hop
        rcases hop with (rfl | rfl) | rfl
        · exact hexists
        · exact h
        · exact chown_asData _ _ hpath

theorem downloadFile_asData_iff (zip_name : ZipName) {up : String}
    (hacc : refused (.str up) = .ok false) (user : Session)
    {params : FileParams} (hup : params.up = .str up) :
    (∀ files, ∀ op ∈ (downloadFile zip_name files user params).1, op.AsData) ↔
      bareText false (downloads user ++ sep ++ zip_name.text).toList = true ∧
        lastText false (withoutSlash up).toList = true := by
  have hstrip : stripSlash params.up = .ok (withoutSlash up) := by rw [hup]; rfl
  rw [← hup] at hacc
  rw [← zip_asData_iff _ user.home]
  constructor
  · intro h
    apply h (constFiles true)
    rw [downloadFile, guardedBy_accepted hacc, hstrip]
    simp [constFiles]
  · intro h files op hop
    rw [downloadFile, guardedBy_accepted hacc, hstrip] at hop
    dsimp only at hop
    have hops : ∀ o ∈ (if files.present (downloads user) = true then
          [FileOp.existsSync (downloads user)]
        else [.existsSync (downloads user), .mkdir (downloads user)]) ++
          [.existsSync (user.path (withoutSlash up))], o.AsData := by
      intro o ho
      rcases List.mem_append.1 ho with ho | ho
      · split at ho
        · rw [List.mem_singleton.1 ho]
          exact asData_of_no_command rfl
        · rcases List.mem_pair.1 ho with rfl | rfl
          · exact asData_of_no_command rfl
          · exact asData_of_no_command rfl
      · rw [List.mem_singleton.1 ho]
        exact asData_of_no_command rfl
    split at hop
    · exact hops op hop
    · split at hop
      · rcases List.mem_append.1 hop with hop | hop
        · exact hops op hop
        · rwa [List.mem_singleton.1 hop]
      · rcases List.mem_append.1 hop with hop | hop
        · exact hops op hop
        · rcases List.mem_pair.1 hop with rfl | rfl
          · exact h
          · exact asData_of_no_command rfl

end Operations

end Quoting

/-- The texts that come from a form or from the file manager stay the data of the commands made of
them just when they are free of what has a meaning where they are put. -/
theorem user_text_is_data_iff {loc username execPath up : String}
    (hloc : bareText false loc.toList = true) (huser : userNameAccepted username = true)
    (hexec : dquotable execPath.toList = true) (hacc : refused (.str up) = .ok false)
    (user : Session) {params : FileParams} (hup : params.up = .str up) (zip_name : ZipName)
    (password args_str : String) :
    (tokens (addSystemUserCommand loc username password).toList =
        .ok (useraddTokens loc username ++ .op ';' :: chpasswdTokens username password) ↔
      dquotable password.toList = true) ∧
    (tokens (updatePasswordCommand username password).toList =
        .ok (chpasswdTokens username password) ↔ dquotable password.toList = true) ∧
    ((∃ ws : List (List Char), tokens (parseUserArgsCommand execPath args_str).toList =
        .ok (words [execPath, "-e", argvScript] ++ ws.map .word)) ↔
      quiet args_str.toList .plain false = true) ∧
    ((∀ files, ∀ op ∈ (chFile files user params).1, op.AsData) ↔
      bareText false params.to_.toKey.toList = true ∧
        lastText false (user.path (withoutSlash up)).toList = true) ∧
    ((∀ files, ∀ op ∈ (downloadFile zip_name files user params).1, op.AsData) ↔
      bareText false (downloads user ++ sep ++ zip_name.text).toList = true ∧
        lastText false (withoutSlash up).toList = true) := by
  refine ⟨?_, ?_, ?_, ?_, ?_⟩
  · exact addSystemUser_iff hloc huser password
  · exact updatePassword_iff huser password
  · exact parseUserArgs_iff hexec args_str
  · exact chFile_asData_iff hacc user hup
  · exact downloadFile_asData_iff zip_name hacc user hup

/-- A password of five letters, a plain argument and a request to make a file readable. -/
theorem user_text_is_data_iff_sample :
    tokens (addSystemUserCommand "/srv/apps/U/ann" "ann" "secret").toList =
      .ok (useraddTokens "/srv/apps/U/ann" "ann" ++ .op ';' :: chpasswdTokens "ann" "secret") := by
  have hzip : ¬ ['.', '.'] <:+: "File_1.zip".toList := by decide
  have hloc : bareText false "/srv/apps/U/ann".toList = true := rfl
  have huser : userNameAccepted "ann" = true := rfl
  have hexec : dquotable "/usr/bin/jx".toList = true := rfl
  have hacc : refused (.str "index.js") = .ok false := rfl
  have hup : FileParams.up ⟨.str "index.js", .undefined, .undefined, .undefined, .undefined,
      .str "644", .undefined, .undefined, .undefined⟩ = .str "index.js" := rfl
  have hall := user_text_is_data_iff hloc huser hexec hacc ⟨"/srv/apps/U/ann", 1000, 1000⟩ hup
    ⟨"File_1.zip", hzip⟩ "secret" "a 'b c'"
  exact hall.1.2 (by decide +kernel)

/-- A password that the form accepts ends the quotes that it is put in. -/
theorem password_runs_command : ¬ ∀ username password repeated : String,
    userNameAccepted username = true → passwordAccepted password repeated = true →
      tokens (updatePasswordCommand username password).toList =
        .ok (chpasswdTokens username password) := by
  intro h
  have hno : tokens (updatePasswordCommand "ann" "a\";reboot;\"b").toList ≠
      .ok (chpasswdTokens "ann" "a\";reboot;\"b") := by decide +kernel
  exact hno (h "ann" "a\";reboot;\"b" "a\";reboot;\"b" (by decide +kernel) (by decide +kernel))

end JXPanel

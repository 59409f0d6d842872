import JXPanel.Json
import JXPanel.Scan
import JXPanel.Commands

namespace JXPanel
set_option autoImplicit true

open Shell Json

/-- The options of an application's spawner. A field that the record of the domain lacks is
absent from the text. -/
structure SpawnerOptions (ν : Type) where
  user : String
  log : String
  file : String
  home : String
  domain : String
  tcp : Option ν
  tcps : Option ν
  logWebAccess : Option (Value ν)
  args : List String
  proper : ∀ v, logWebAccess = some v → v.Proper

/-- A field that may be undefined. -/
def optional (key : String) (v : Option (Value ν)) : List (String × Value ν) :=
  match v with
  | none => []
  | some v => [(key, v)]

/-- The object that `appGetSpawnerCommand` makes of them. -/
def SpawnerOptions.fields (opt : SpawnerOptions ν) : List (String × Value ν) :=
  [("user", .str opt.user), ("log", .str opt.log), ("file", .str opt.file),
    ("home", .str opt.home), ("domain", .str opt.domain)] ++
  optional "tcp" (opt.tcp.map .num) ++ optional "tcps" (opt.tcps.map .num) ++
  optional "logWebAccess" opt.logWebAccess ++ [("args", .arr (opt.args.map .str))]

def SpawnerOptions.json (opt : SpawnerOptions ν) : Value ν := .obj opt.fields

def optionNames : List String :=
  ["user", "log", "file", "home", "domain", "tcp", "tcps", "logWebAccess", "args"]

variable (N : Numbers ν)

def appGetSpawnerPath (dirAppConfigs domain_name : String) : String :=
  dirAppConfigs ++ "spawner_" ++ domain_name ++ ".jx"

/-- The command of `appGetSpawnerCommand`. -/
def spawnerCommand (jxPath spawnerPath : String) (opt : SpawnerOptions ν) : String :=
  jxPath ++ " " ++ spawnerPath ++ " -opt '" ++ String.ofList (write N opt.json) ++ "'"

/-- The domain's record has its name under which the spawner's file is. -/
def appGetSpawnerCommand (jxPath dirAppConfigs : String) (opt : SpawnerOptions ν) : String :=
  spawnerCommand N jxPath (appGetSpawnerPath dirAppConfigs opt.domain) opt

def isRedirection (c : Char) : Bool := decide (c ∈ ['<', '>'])

mutual
/-- The words of the first command. -/
def argv : List Token → List (List Char)
  | [] => []
  | .word w :: ts => w :: argv ts
  | .op c :: ts => if isRedirection c then argvBehind ts else []

/-- The word behind a redirection is no argument. -/
def argvBehind : List Token → List (List Char)
  | [] => []
  | .word _ :: ts => argv ts
  | .op c :: ts => if isRedirection c then argvBehind ts else []
end

/-- The argument behind the first `-opt`, unless it is empty. -/
def afterOpt : List (List Char) → Option (List Char)
  | [] => none
  | w :: ws => if w = "-opt".toList then ws.head?.filter (· ≠ []) else afterOpt ws

/-- What the spawner takes as its options from the command line that it is started with. -/
def decodeOptions (cmd : String) : Option (Value ν) :=
  match tokens cmd.toList with
  | .ok ts => (afterOpt (argv ts)).bind (read N)
  | .error _ => none

/-- `options[key]` -/
def field (v : Value ν) (key : String) : Option (Value ν) :=
  match v with
  | .obj fs => fs.lookup key
  | _ => none

/-- The validator of an application's file name. -/
def fileNameAccepted (val : String) : Bool :=
  ["./", "/.", ".\\", "\\.", "\n", "\r", "\t"].all (fun t => !decide (t.toList <:+: val.toList)) &&
    ["/", "\\", " ", ".."].all fun t => !decide (t.toList <+: val.toList)

section Domain

def isLabel (l : List Char) : Bool :=
  decide (3 ≤ l.length ∧ l.length ≤ 63) && l.head?.any Char.isAlphanum &&
    l.getLast?.any Char.isAlphanum && l.all fun c => c.isAlphanum || decide (c = '-')

def isTopLevel (l : List Char) : Bool :=
  decide (2 ≤ l.length ∧ l.length ≤ 4) && l.all Char.isAlpha

/-- What a dot stands for in a regular expression. -/
def isAny (c : Char) : Bool :=
  decide (c ∉ ['\n', '\r', '\u2028', '\u2029']) && decide (c.toNat < 0x10000)

/-- The names that `checkDomain` accepts. The backslash in front of the dot of its regular
expression is lost in the string that the expression is made of. -/
inductive CheckDomain : List Char → Prop
  | last (l : List Char) (c : Char) (t : List Char) (hl : isLabel l = true) (hc : isAny c = true)
      (ht : isTopLevel t = true) : CheckDomain (l ++ c :: t)
  | more (l : List Char) (c : Char) (cs : List Char) (hl : isLabel l = true) (hc : isAny c = true)
      (hcs : CheckDomain cs) : CheckDomain (l ++ c :: cs)

/-- The names that the forms store: an accepted one may lose its `www.`, and the name of a subdomain is put in
front of a stored one with a dot between. -/
inductive StoredName : List Char → Prop
  | topLevel (t : List Char) (ht : isTopLevel t = true) : StoredName t
  | dot (cs : List Char) (hcs : StoredName cs) : StoredName ('.' :: cs)
  | label (l : List Char) (c : Char) (cs : List Char) (hl : isLabel l = true) (hc : isAny c = true)
      (hcs : StoredName cs) : StoredName (l ++ c :: cs)

theorem CheckDomain.stored {cs : List Char} (h : CheckDomain cs) : StoredName cs := by
  induction h with
  | last l c t hl hc ht => exact .label l c t hl hc (.topLevel t ht)
  | more l c cs hl hc hcs ih => exact .label l c cs hl hc ih

end Domain

/-- The texts of the options. -/
def SpawnerOptions.texts (opt : SpawnerOptions ν) : List (List Char) :=
  [opt.user.toList, opt.log.toList, opt.file.toList, opt.home.toList, opt.domain.toList] ++
    (opt.logWebAccess.map (write N)).toList ++ opt.args.map String.toList

section Fields
variable (opt : SpawnerOptions ν)

theorem SpawnerOptions.nodup_fields : (opt.fields.map Prod.fst).Nodup := by
  unfold fields
  cases opt.tcp <;> cases opt.tcps <;> cases opt.logWebAccess <;> simp [optional]

theorem mem_of_lookup {fs : List (String × Value ν)} {f : String × Value ν}
    (h : fs.lookup f.1 = some f.2) : f ∈ fs := by
  obtain ⟨l, r, rfl, -⟩ := List.lookup_eq_some_iff.1 h
  simp

theorem lookup_of_mem {fs : List (String × Value ν)} {f : String × Value ν}
    (hkeys : (fs.map Prod.fst).Nodup) (h : f ∈ fs) : fs.lookup f.1 = some f.2 := by
  obtain ⟨l, r, rfl⟩ := List.append_of_mem h
  rw [List.map_append, List.map_cons, List.nodup_append] at hkeys
  apply List.lookup_eq_some_iff.2
  refine ⟨l, r, rfl, fun g hg => ?_⟩
  have hne := hkeys.2.2 g.1 (List.mem_map_of_mem hg) f.1 List.mem_cons_self
  simpa using hne.symm

theorem mem_optional {f : String × Value ν} {key : String} {v : Option (Value ν)} :
    f ∈ optional key v ↔ ∃ w, v = some w ∧ f = (key, w) := by
  cases v <;> simp [optional]

theorem SpawnerOptions.name_mem {f : String × Value ν} (h : f ∈ opt.fields) :
    f.1 ∈ optionNames := by
  simp only [fields, List.mem_append, List.mem_cons, mem_optional, List.not_mem_nil, or_false,
    Option.map_eq_some_iff] at h
  rcases h with (((h | ⟨_, _, rfl⟩) | ⟨_, _, rfl⟩) | ⟨v, _, rfl⟩) | rfl
  · rcases h with rfl | rfl | rfl | rfl | rfl
    all_goals simp [optionNames]
  all_goals simp [optionNames]

theorem SpawnerOptions.proper_json : opt.json.Proper := by
  apply Value.Proper.obj _ opt.nodup_fields
  intro f hf
  simp only [fields, List.mem_append, List.mem_cons, mem_optional, List.not_mem_nil, or_false,
    Option.map_eq_some_iff] at hf
  rcases hf with (((hf | ⟨_, ⟨n, -, rfl⟩, rfl⟩) | ⟨_, ⟨n, -, rfl⟩, rfl⟩) | ⟨v, hv, rfl⟩) | rfl
  · rcases hf with rfl | rfl | rfl | rfl | rfl
    all_goals exact .str _
  · exact .num n
  · exact .num n
  · exact opt.proper v hv
  · apply Value.Proper.arr
    intro v hv
    obtain ⟨s, -, rfl⟩ := List.mem_map.1 hv
    exact .str s

theorem SpawnerOptions.mem_write_iff :
    '\'' ∈ write N opt.json ↔ ∃ text ∈ opt.texts N, '\'' ∈ text := by
  have hobj : '\'' ∈ write N opt.json ↔ '\'' ∈ writeFields N true opt.fields := by
    rw [json, write, List.mem_cons, or_iff_right (by decide)]
  have hkeys : ∀ key ∈ optionNames, '\'' ∉ key.toList := by decide
  have hstr : ∀ s, '\'' ∈ write N (.str s) ↔ '\'' ∈ s.toList := by
    intro s
    rw [write, mem_quoted_iff]
  have harr : ∀ l, '\'' ∈ write N (.arr l) ↔ ∃ v ∈ l, '\'' ∈ write N v := by
    intro l
    rw [write, List.mem_cons, or_iff_right (by decide), mem_writeItems_iff]
  have hnum : ∀ n, '\'' ∉ write N (.num n) := by
    intro n hn
    rw [write] at hn
    cases N.numeric n _ hn
  have hvalues : (∃ f ∈ opt.fields, '\'' ∈ f.1.toList ∨ '\'' ∈ write N f.2) ↔
      ∃ f ∈ opt.fields, '\'' ∈ write N f.2 := by
    constructor
    · rintro ⟨f, hf, hkey | hv⟩
      · exact (hkeys _ (opt.name_mem hf) hkey).elim
      · exact ⟨f, hf, hv⟩
    · rintro ⟨f, hf, hv⟩
      exact ⟨f, hf, .inr hv⟩
  rw [hobj, mem_writeFields_iff, hvalues]
  simp [fields, texts, mem_optional, or_and_right, exists_or, hstr, harr, hnum]

/-- The options come back in one piece only: what has them all is as heavy as they are. -/
theorem SpawnerOptions.marks_le {v : Value ν}
    (h : ∀ key ∈ optionNames, field v key = field opt.json key) :
    marks (write N opt.json) ≤ marks (write N v) := by
  have hfield : ∀ f ∈ opt.fields, field v f.1 = some f.2 := by
    intro f hf
    rw [h f.1 (opt.name_mem hf)]
    exact lookup_of_mem opt.nodup_fields hf
  cases v with
  | obj gs =>
    rw [json, marks_obj, marks_obj]
    apply fieldsMarks_le_of_subset N opt.nodup_fields
    intro f hf
    exact mem_of_lookup (hfield f hf)
  | _ =>
    have hnone := hfield ("user", .str opt.user) (by simp [fields])
    cases hnone

end Fields

section Arguments

/-- A token that does not end the command. -/
def goesOn : Token → Bool
  | .word _ => true
  | .op c => isRedirection c

theorem mem_argv {w : List Char} {ts : List Token} :
    (w ∈ argv ts → .word w ∈ ts) ∧ (w ∈ argvBehind ts → .word w ∈ ts) := by
  induction ts with
  | nil => exact ⟨fun h => (List.not_mem_nil h).elim, fun h => (List.not_mem_nil h).elim⟩
  | cons t ts ih =>
    cases t with
    | word v =>
      constructor
      · intro h
        rw [argv] at h
        rcases List.mem_cons.1 h with rfl | h
        · exact List.mem_cons_self
        · exact List.mem_cons_of_mem _ (ih.1 h)
      · intro h
        rw [argvBehind] at h
        exact List.mem_cons_of_mem _ (ih.1 h)
    | op c =>
      constructor
      · intro h
        rw [argv] at h
        split at h
        · exact List.mem_cons_of_mem _ (ih.2 h)
        · cases h
      · intro h
        rw [argvBehind] at h
        split at h
        · exact List.mem_cons_of_mem _ (ih.2 h)
        · cases h

theorem afterOpt_cons {w : List Char} (h : w ≠ "-opt".toList) (ws : List (List Char)) :
    afterOpt (w :: ws) = afterOpt ws := by
  rw [afterOpt, if_neg h]

theorem afterOpt_behind {w t : List Char} {ws : List (List Char)}
    (h : afterOpt (t :: ws) = some w) : w ∈ ws := by
  induction ws generalizing t with
  | nil =>
    rw [afterOpt] at h
    split at h <;> cases h
  | cons v ws ih =>
    rw [afterOpt] at h
    split at h
    · have hv := (Option.filter_eq_some_iff.1 h).1
      rw [← Option.some.inj hv]
      exact List.mem_cons_self
    · exact List.mem_cons_of_mem _ (ih h)

/-- Words other than `-opt` are passed over, unless the command ends with them. -/
theorem afterOpt_argv {ts : List Token} {u : List Char} (hu : u ≠ "-opt".toList)
    (hts : ∀ w, .word w ∈ ts → w ≠ "-opt".toList) (us : List Token) :
    afterOpt (argv (ts ++ .word u :: us)) =
        (if ts.all goesOn then afterOpt (argv us) else none) ∧
      afterOpt (argvBehind (ts ++ .word u :: us)) =
        (if ts.all goesOn then afterOpt (argv us) else none) := by
  induction ts with
  | nil =>
    constructor
    · rw [List.nil_append, argv, afterOpt_cons hu]
      rfl
    · rw [List.nil_append, argvBehind]
      rfl
  | cons t ts ih =>
    obtain ⟨hargv, hbehind⟩ := ih fun w hw => hts w (List.mem_cons_of_mem _ hw)
    cases t with
    | word v =>
      have hv := hts v List.mem_cons_self
      have hall : (Token.word v :: ts).all goesOn = ts.all goesOn := rfl
      rw [hall, List.cons_append, argv, argvBehind, afterOpt_cons hv]
      exact ⟨hargv, hargv⟩
    | op c =>
      rw [List.cons_append, argv, argvBehind]
      cases hc : isRedirection c with
      | true =>
        have hall : (Token.op c :: ts).all goesOn = ts.all goesOn := by
          rw [List.all_cons, goesOn, hc, Bool.true_and]
        rw [hall, if_pos rfl]
        exact ⟨hbehind, hbehind⟩
      | false =>
        have hall : (Token.op c :: ts).all goesOn = false := by
          rw [List.all_cons, goesOn, hc, Bool.false_and]
        rw [hall, if_neg Bool.false_ne_true, if_neg Bool.false_ne_true]
        exact ⟨rfl, rfl⟩

end Arguments

section Decode
variable (opt : SpawnerOptions ν)

/-- What stands behind the paths. -/
def optText : List Char := "-opt '".toList ++ (write N opt.json ++ ['\''])

/-- The paths are read as words of the command, none of which is left open. -/
def pathKept (pre : List Char) : Bool :=
  match scan [' '] pre .plain none with
  | .ok (ts, .plain, _) => ts.all goesOn
  | _ => false

/-- What of the object is read while a quote is open that the paths have opened. -/
theorem json_begins : ∃ r, write N opt.json = "\x7b\"user".toList ++ r := ⟨_, rfl⟩

/-- The texts of the paths, up to what they leave open. -/
theorem tokens_behind (pre : List Char) :
    tokens (pre ++ ' ' :: optText N opt) =
      (scan [' '] pre .plain none).bind fun q =>
        emit q.1 (lex (' ' :: optText N opt) q.2.1 q.2.2) := by
  rw [tokens, lex_append, scan_blank]

/-- In a word that the paths have ended, `-opt` and what is quoted follow. -/
theorem lex_optText (u : List Char) :
    lex (' ' :: optText N opt) .plain (some u) =
      emit [.word u, .word "-opt".toList] (lex (write N opt.json ++ ['\'']) .single (some [])) := by
  have hread : lex (' ' :: optText N opt) .plain (some u) = emit [.word u]
      (emit [.word "-opt".toList] (lex (write N opt.json ++ ['\'']) .single (some []))) := rfl
  rw [hread, ← emit_append]
  rfl

/-- A quote that the paths leave open takes the name of the first field in. -/
theorem lex_open {m : Mode} (hm : m = .single ∨ m = .double) (u : List Char) {r : List Char}
    (hr : write N opt.json = "\x7b\"user".toList ++ r) :
    ∃ m' x, (m' = .double ∨ m' = .plain) ∧ u <+: x ∧
      lex (' ' :: optText N opt) m (some u) = lex (r ++ ['\'']) m' (some x) := by
  have hfield : ∀ v : List Char, v ++ ['{'] ++ ['u'] ++ ['s'] ++ ['e'] ++ ['r'] =
      v ++ "\x7buser".toList := by
    intro v
    simp
  rw [optText, hr]
  rcases hm with rfl | rfl
  · refine ⟨.double, u ++ " -opt ".toList ++ "\x7buser".toList, .inl rfl, ?_, ?_⟩
    · rw [List.append_assoc]
      exact List.prefix_append u _
    · have hkept := @lex_single_kept ("\x7b\"user".toList ++ r ++ ['\'']) " -opt ".toList (by decide) u
      rw [← hfield]
      exact hkept
  · refine ⟨.plain, u ++ " -opt '".toList ++ "\x7buser".toList, .inr rfl, ?_, ?_⟩
    · rw [List.append_assoc]
      exact List.prefix_append u _
    · have hpushed : u ++ [' '] ++ ['-'] ++ ['o'] ++ ['p'] ++ ['t'] ++ [' '] ++ ['\''] =
          u ++ " -opt '".toList := by simp
      rw [← hfield, ← hpushed]
      rfl

/-- The words in front of `-opt` and those that a quote takes it into. -/
def badStarts : List Char := ['-', '#']

theorem clear_ne_opt {u : List Char} (h : Clear badStarts (some u)) : u ≠ "-opt".toList := by
  rintro rfl
  exact h '-' rfl (by decide)

theorem weight_le_of_mem {w : List Char} {ts : List Token} (h : .word w ∈ ts) :
    weight mark w ≤ tokensWeight mark ts := by
  apply List.le_sum_of_mem
  exact List.mem_map.2 ⟨.word w, h, rfl⟩

/-- What is decoded behind a quote that the paths leave open is too light. -/
theorem decoded_open {m : Mode} (hm : m = .single ∨ m = .double) {u : List Char}
    (hu : Clear badStarts (some u)) (hne : u ≠ []) {ts us : List Token}
    (hts : ∀ w, .word w ∈ ts → Clear badStarts (some w))
    (hlex : lex (' ' :: optText N opt) m (some u) = .ok us) {w : List Char}
    (h : afterOpt (argv (ts ++ us)) = some w) : marks w < marks (write N opt.json) := by
  obtain ⟨r, hr⟩ := json_begins N opt
  obtain ⟨m', x, hm', hpre, hopen⟩ := lex_open N opt hm u hr
  rw [hopen] at hlex
  have hbegun : m' ≠ .comment := by rcases hm' with rfl | rfl <;> decide
  have hpend : pending mark m' = 0 := by rcases hm' with rfl | rfl <;> rfl
  obtain ⟨t, vs, rfl, hx⟩ := lex_begun hbegun hlex
  have ht : t ≠ "-opt".toList := by
    apply clear_ne_opt
    obtain ⟨y, rfl⟩ := hpre
    obtain ⟨z, rfl⟩ := hx
    cases u with
    | nil => exact (hne rfl).elim
    | cons d u => exact hu
  rw [(afterOpt_argv ht (fun v hv => clear_ne_opt (hts v hv)) vs).1] at h
  split at h
  · have hmem : .word w ∈ vs := by
      apply mem_argv.1
      have hcons : afterOpt ([] :: argv vs) = some w := by
        rw [afterOpt_cons (by decide)]
        exact h
      exact afterOpt_behind hcons
    have htotal := tokensWeight_le mark (.inl rfl) (by decide) hlex
    have hw := weight_le_of_mem hmem
    have hlight : weight mark x ≤ weight mark t := by
      obtain ⟨y, rfl⟩ := hx
      rw [weight_append]
      exact Nat.le_add_right _ _
    have hcons : tokensWeight mark (.word t :: vs) =
        weight mark t + tokensWeight mark vs := rfl
    have hmarks : marks (write N opt.json) = 1 + marks r := by
      rw [hr, marks_append]
      rfl
    have hsame : ∀ cs, weight mark cs = marks cs := fun _ => rfl
    rw [hcons, Option.getD_some] at htotal
    rw [hsame] at hw
    rw [hsame r] at htotal
    omega
  · cases h

theorem decodeOptions_command (jxPath spawnerPath : String) :
    decodeOptions N (spawnerCommand N jxPath spawnerPath opt) =
      match scan [' '] (jxPath ++ " " ++ spawnerPath).toList .plain none with
      | .ok (ts, m, cur) =>
        match lex (' ' :: optText N opt) m cur with
        | .ok us => (afterOpt (argv (ts ++ us))).bind (read N)
        | .error _ => none
      | .error _ => none := by
  have hcmd : (spawnerCommand N jxPath spawnerPath opt).toList =
      (jxPath ++ " " ++ spawnerPath).toList ++ ' ' :: optText N opt := by
    simp [spawnerCommand, optText]
  rw [decodeOptions, hcmd, tokens_behind]
  cases scan [' '] (jxPath ++ " " ++ spawnerPath).toList .plain none with
  | error f => rfl
  | ok q =>
    obtain ⟨ts, m, cur⟩ := q
    have hok : ∀ (g : List Token × Mode × Option (List Char) → Except Shell.Fault (List Token)),
        (Except.ok (ts, m, cur) : Except Shell.Fault _).bind g = g (ts, m, cur) := fun _ => rfl
    rw [hok]
    dsimp only
    cases lex (' ' :: optText N opt) m cur with
    | error f => rfl
    | ok us => rfl

variable {jxPath spawnerPath : String}

/-- The options come back when the paths are kept and no text has an apostrophe. -/
theorem decode_of_kept (hpre : pathKept (jxPath ++ " " ++ spawnerPath).toList = true)
    (hapart : apart badStarts true (jxPath ++ " " ++ spawnerPath).toList = true)
    (hlast : ∃ cs c, c ∉ specials ∧ (jxPath ++ " " ++ spawnerPath).toList = cs ++ [c])
    (h : ∀ text ∈ opt.texts N, '\'' ∉ text) :
    decodeOptions N (spawnerCommand N jxPath spawnerPath opt) = some opt.json := by
  have hfree : '\'' ∉ write N opt.json := by
    intro hmem
    obtain ⟨text, htext, hquote⟩ := (opt.mem_write_iff N).1 hmem
    exact h text htext hquote
  obtain ⟨cs, c, hc, hcs⟩ := hlast
  rw [decodeOptions_command]
  rw [hcs] at hpre hapart ⊢
  unfold pathKept at hpre
  split at hpre
  · rename_i ts cur hscan
    obtain ⟨-, u, -, rfl⟩ := scan_last [' '] hc (by decide) hscan
    obtain ⟨-, hu, hts⟩ := scan_clear [' '] (by decide) (by decide) hapart (by decide)
      (by intro d hd; cases hd) (fun _ => rfl) hscan
    have hlex : lex (write N opt.json ++ ['\'']) .single (some []) =
        .ok [.word (write N opt.json)] := by
      rw [lex_single_kept hfree]
      rfl
    have hread : afterOpt (argv (ts ++ (.word u :: .word "-opt".toList ::
        [.word (write N opt.json)]))) = some (write N opt.json) := by
      rw [(afterOpt_argv (clear_ne_opt hu) (fun v hv => clear_ne_opt (hts v hv)) _).1, if_pos hpre]
      rfl
    rw [hscan]
    dsimp only
    rw [lex_optText, hlex]
    have hemit : emit [.word u, .word "-opt".toList] (.ok [.word (write N opt.json)]) =
        .ok (.word u :: .word "-opt".toList :: [.word (write N opt.json)]) := rfl
    rw [hemit]
    dsimp only
    rw [hread]
    exact read_write N opt.proper_json
  · cases hpre

/-- Elsewhere what is decoded, if anything is, is too light to hold all the options. -/
theorem kept_of_decode (hapart : apart badStarts true (jxPath ++ " " ++ spawnerPath).toList = true)
    (hlast : ∃ cs c, c ∉ specials ∧ (jxPath ++ " " ++ spawnerPath).toList = cs ++ [c])
    {v : Value ν} (h : decodeOptions N (spawnerCommand N jxPath spawnerPath opt) = some v)
    (hv : ∀ key ∈ optionNames, field v key = field opt.json key) :
    pathKept (jxPath ++ " " ++ spawnerPath).toList = true ∧ ∀ text ∈ opt.texts N, '\'' ∉ text := by
  have hlight : ∀ w, read N w = some v → marks (write N opt.json) ≤ marks w := by
    intro w hw
    exact (opt.marks_le N hv).trans (read_marks N hw)
  obtain ⟨cs, c, hc, hcs⟩ := hlast
  rw [decodeOptions_command] at h
  rw [hcs] at hapart h ⊢
  cases hscan : scan [' '] (cs ++ [c]) .plain none with
  | error f =>
    rw [hscan] at h
    cases h
  | ok q =>
    obtain ⟨ts, m, cur⟩ := q
    obtain ⟨hm, hu, hts⟩ := scan_clear [' '] (by decide) (by decide) hapart (by decide)
      (by intro d hd; cases hd) (fun _ => rfl) hscan
    obtain ⟨hmode, u, hne, rfl⟩ := scan_last [' '] hc hm hscan
    rw [hscan] at h
    dsimp only at h
    cases hlex : lex (' ' :: optText N opt) m (some u) with
    | error f =>
      rw [hlex] at h
      cases h
    | ok us =>
      rw [hlex] at h
      dsimp only at h
      obtain ⟨w, hw, hread⟩ := Option.bind_eq_some_iff.1 h
      have hheavy := hlight w hread
      rcases hmode with rfl | hopen
      · rw [lex_optText] at hlex
        obtain ⟨ts', hquoted, rfl⟩ := emit_ok hlex
        obtain ⟨t, vs, rfl, -⟩ := lex_begun (by decide) hquoted
        rw [List.cons_append, (afterOpt_argv (clear_ne_opt hu)
          (fun v hv => clear_ne_opt (hts v hv)) _).1] at hw
        split at hw
        · rename_i hall
          have ht : w = t := by
            have hopt : afterOpt (argv ([.word "-opt".toList] ++ .word t :: vs)) =
                ([t] ++ argv vs).head?.filter (· ≠ []) := rfl
            rw [hopt] at hw
            exact (Option.some.inj (Option.filter_eq_some_iff.1 hw).1).symm
          subst ht
          refine ⟨?_, ?_⟩
          · rw [pathKept, hscan]
            exact hall
          · intro text htext hquote
            have hmem : '\'' ∈ write N opt.json := (opt.mem_write_iff N).2 ⟨text, htext, hquote⟩
            have hstop : Stops [] := by
              intro d hd
              cases hd
            have hlighter := lex_single_lighter mark (by decide) (by decide) hstop
              List.not_mem_nil List.not_mem_nil hmem hquoted
            have hnil : weight mark [] = 0 := rfl
            have hsame : ∀ cs, weight mark cs = marks cs := fun _ => rfl
            rw [hnil, hsame, hsame] at hlighter
            omega
        · cases hw
      · have hlighter := decoded_open N opt hopen hu hne hts hlex hw
        omega

end Decode

section Paths

def isPlain (s : String) : Bool := s.toList.all fun c => !decide (c ∈ specials)

/-- An absolute path without a character that may have a meaning. -/
def PlainPath (s : String) : Prop := s.toList.head? = some '/' ∧ isPlain s = true

theorem not_special_of_isPlain {s : String} (h : isPlain s = true) : ∀ c ∈ s.toList, c ∉ specials := by
  intro c hc
  have hall := List.all_eq_true.1 h c hc
  simpa using hall

theorem apart_goesOn {bad s : List Char} (h : ∀ c ∈ s, c ∉ specials) (rest : List Char) :
    apart bad false (s ++ rest) = apart bad false rest := by
  induction s with
  | nil => rfl
  | cons c s ih =>
    rw [List.cons_append, apart, decide_eq_false (h c List.mem_cons_self), Bool.false_and,
      Bool.not_false, Bool.true_and]
    exact ih fun d hd => h d (List.mem_cons_of_mem _ hd)

/-- A word without a character that may have a meaning. -/
theorem apart_plain {bad : List Char} {c : Char} {s : List Char} (hc : c ∉ bad)
    (h : ∀ d ∈ c :: s, d ∉ specials) (start : Bool) (rest : List Char) :
    apart bad start (c :: s ++ rest) = apart bad false rest := by
  rw [List.cons_append, apart, decide_eq_false hc, Bool.and_false, Bool.not_false, Bool.true_and,
    decide_eq_false (h c List.mem_cons_self)]
  exact apart_goesOn (fun d hd => h d (List.mem_cons_of_mem _ hd)) rest

theorem alphanum_plain {c : Char} (h : c.isAlphanum = true) : c ∉ specials ∧ c ∉ badStarts := by
  have hno : ∀ l : List Char, l.all (fun d => !d.isAlphanum) = true → c ∉ l := by
    intro l hl hc
    have hall := List.all_eq_true.1 hl c hc
    rw [h] at hall
    cases hall
  exact ⟨hno specials (by decide), hno badStarts (by decide)⟩

theorem label_plain {l : List Char} (h : isLabel l = true) :
    ∃ c s, l = c :: s ∧ c ∉ badStarts ∧ ∀ d ∈ c :: s, d ∉ specials := by
  rw [isLabel, Bool.and_eq_true, Bool.and_eq_true, Bool.and_eq_true] at h
  obtain ⟨⟨⟨-, hfirst⟩, -⟩, hall⟩ := h
  cases l with
  | nil => cases hfirst
  | cons c s =>
    refine ⟨c, s, rfl, (alphanum_plain hfirst).2, ?_⟩
    intro d hd
    rcases Bool.or_eq_true_iff.1 (List.all_eq_true.1 hall d hd) with hd | hd
    · exact (alphanum_plain hd).1
    · rw [of_decide_eq_true hd]
      decide

theorem topLevel_plain {l : List Char} (h : isTopLevel l = true) :
    ∃ c s, l = c :: s ∧ c ∉ badStarts ∧ ∀ d ∈ c :: s, d ∉ specials := by
  rw [isTopLevel, Bool.and_eq_true, decide_eq_true_iff] at h
  obtain ⟨⟨hlen, -⟩, hall⟩ := h
  have halnum : ∀ d ∈ l, d.isAlphanum = true := by
    intro d hd
    rw [Char.isAlphanum, List.all_eq_true.1 hall d hd, Bool.true_or]
  cases l with
  | nil => cases hlen
  | cons c s =>
    exact ⟨c, s, rfl, (alphanum_plain (halnum c List.mem_cons_self)).2,
      fun d hd => (alphanum_plain (halnum d hd)).1⟩

/-- Between the labels of a name anything may stand, but a label begins with a letter or a
digit. -/
theorem StoredName.apart {cs : List Char} (h : StoredName cs) (start : Bool) {rest : List Char}
    (hrest : Shell.apart badStarts false rest = true) :
    Shell.apart badStarts start (cs ++ rest) = true := by
  have hsep : ∀ c cs, Shell.apart badStarts (decide (c ∈ specials)) cs = true →
      Shell.apart badStarts false (c :: cs) = true := by
    intro c cs hcs
    rw [Shell.apart, Bool.false_and, Bool.not_false, Bool.true_and]
    exact hcs
  induction h generalizing start with
  | topLevel t ht =>
    obtain ⟨e, r, rfl, he, hr⟩ := topLevel_plain ht
    exact (apart_plain he hr start rest).trans hrest
  | dot cs hcs ih =>
    have hstart : '.' ∉ badStarts := by decide
    have hplain : ∀ d ∈ ['.'], d ∉ specials := List.forall_mem_singleton.2 (by decide)
    exact (apart_plain hstart hplain start (cs ++ rest)).trans (ih false)
  | label l c cs hl hc hcs ih =>
    obtain ⟨d, s, rfl, hd, hs⟩ := label_plain hl
    rw [List.append_assoc, apart_plain hd hs]
    exact hsep c _ (ih _)

variable {jxPath dirAppConfigs domain_name : String}

theorem PlainPath.begins {s : String} (h : PlainPath s) :
    ∃ c cs, s.toList = c :: cs ∧ c ∉ badStarts ∧ ∀ d ∈ c :: cs, d ∉ specials := by
  obtain ⟨hfirst, hplain⟩ := h
  have hall := not_special_of_isPlain hplain
  cases hs : s.toList with
  | nil =>
    rw [hs] at hfirst
    cases hfirst
  | cons c cs =>
    rw [hs] at hfirst hall
    refine ⟨c, cs, rfl, ?_, hall⟩
    rw [Option.some.inj hfirst]
    decide

theorem apart_paths (hjx : PlainPath jxPath) (hdir : PlainPath dirAppConfigs)
    (hdomain : StoredName domain_name.toList) :
    apart badStarts true
      (jxPath ++ " " ++ appGetSpawnerPath dirAppConfigs domain_name).toList = true := by
  obtain ⟨c, cs, hjxs, hc, hcs⟩ := hjx.begins
  obtain ⟨d, ds, hdirs, hd, hds⟩ := hdir.begins
  have hpaths : (jxPath ++ " " ++ appGetSpawnerPath dirAppConfigs domain_name).toList =
      c :: cs ++ (' ' :: (d :: ds ++ ("spawner_".toList ++ (domain_name.toList ++ ".jx".toList)))) := by
    simp [appGetSpawnerPath, hjxs, hdirs]
  have hblank : ∀ rest, apart badStarts true rest = true →
      apart badStarts false (' ' :: rest) = true := by
    intro rest hrest
    exact hrest
  have hspawner := not_special_of_isPlain (s := "spawner_") (by decide)
  rw [hpaths, apart_plain hc hcs]
  apply hblank
  rw [apart_plain hd hds, apart_goesOn hspawner]
  exact hdomain.apart false (by decide)

theorem last_paths : ∃ cs c, c ∉ specials ∧
    (jxPath ++ " " ++ appGetSpawnerPath dirAppConfigs domain_name).toList = cs ++ [c] := by
  refine ⟨(jxPath ++ " " ++ dirAppConfigs ++ "spawner_" ++ domain_name ++ ".j").toList, 'x',
    by decide, ?_⟩
  simp [appGetSpawnerPath]

end Paths

section Main
variable {jxPath dirAppConfigs : String} (opt : SpawnerOptions ν)

/-- The options come back from the command line just when the name of the domain leaves the paths
in front of them whole, and no text of theirs has an apostrophe. -/
theorem options_decoded_iff (hjx : PlainPath jxPath) (hdir : PlainPath dirAppConfigs)
    (hdomain : StoredName opt.domain.toList) :
    (decodeOptions N (appGetSpawnerCommand N jxPath dirAppConfigs opt) = some opt.json ↔
      pathKept (jxPath ++ " " ++ appGetSpawnerPath dirAppConfigs opt.domain).toList = true ∧
        ∀ text ∈ opt.texts N, '\'' ∉ text) ∧
    ((∃ v, decodeOptions N (appGetSpawnerCommand N jxPath dirAppConfigs opt) = some v ∧
        ∀ key ∈ optionNames, field v key = field opt.json key) ↔
      pathKept (jxPath ++ " " ++ appGetSpawnerPath dirAppConfigs opt.domain).toList = true ∧
        ∀ text ∈ opt.texts N, '\'' ∉ text) := by
  have hapart := apart_paths hjx hdir hdomain
  constructor
  · constructor
    · intro h
      exact kept_of_decode N opt hapart last_paths h fun _ _ => rfl
    · rintro ⟨hkept, h⟩
      exact decode_of_kept N opt hkept hapart last_paths h
  · constructor
    · rintro ⟨v, h, hv⟩
      exact kept_of_decode N opt hapart last_paths h hv
    · rintro ⟨hkept, h⟩
      exact ⟨opt.json, decode_of_kept N opt hkept hapart last_paths h, fun _ _ => rfl⟩

end Main

section Samples

/-- The options of an application with two arguments. -/
def sampleOptions (file : String) : SpawnerOptions Int where
  user := "ann"
  log := "jxcore_logs/index.txt"
  file := file
  home := "/srv/apps/U/ann/abc.com/"
  domain := "abc.com"
  tcp := some 10000
  tcps := some 10001
  logWebAccess := some (.bool true)
  args := ["a b", "\"c\""]
  proper := by
    intro v hv
    rw [← Option.some.inj hv]
    exact .bool true

theorem checkDomain_sample : CheckDomain "abc.com".toList :=
  .last "abc".toList '.' "com".toList (by decide) (by decide) (by decide)

theorem options_decoded_iff_sample :
    decodeOptions integers
      (appGetSpawnerCommand integers "/opt/jx" "/opt/panel/" (sampleOptions "index.js")) =
        some (sampleOptions "index.js").json := by
  have hjx : PlainPath "/opt/jx" := ⟨by decide, by decide⟩
  have hdir : PlainPath "/opt/panel/" := ⟨by decide, by decide⟩
  have hall := options_decoded_iff integers (sampleOptions "index.js") hjx hdir checkDomain_sample.stored
  exact hall.1.2 ⟨by decide +kernel, by decide +kernel⟩

/-- A file name that the form accepts ends the quotes that the options are put in. -/
theorem apostrophe_breaks_options : ¬ ∀ opt : SpawnerOptions Int,
    fileNameAccepted opt.file = true → CheckDomain opt.domain.toList →
      decodeOptions integers (appGetSpawnerCommand integers "/opt/jx" "/opt/panel/" opt) =
        some opt.json := by
  intro h
  have hno : decodeOptions integers
      (appGetSpawnerCommand integers "/opt/jx" "/opt/panel/" (sampleOptions "it's.js")) =
        none := by
    decide +kernel
  have hsome := h (sampleOptions "it's.js") (by decide +kernel) checkDomain_sample
  rw [hno] at hsome
  cases hsome

end Samples

end JXPanel

import Mathlib.Data.List.Basic
import Mathlib.Algebra.Order.BigOperators.Group.List
import Mathlib.Algebra.Order.Ring.Nat
import Mathlib.Tactic.Common

set_option autoImplicit true

/-! The texts that JSON values are written as, and how they are read: one character at a time,
with the arrays and objects that are still open on a stack. -/

namespace Json

inductive Value (ν : Type)
  | null
  | bool (b : Bool)
  | num (n : ν)
  | str (s : String)
  | arr (l : List (Value ν))
  | obj (fs : List (String × Value ν))

/-- No object has two fields of one name. -/
inductive Value.Proper : Value ν → Prop
  | null : Proper .null
  | bool (b : Bool) : Proper (.bool b)
  | num (n : ν) : Proper (.num n)
  | str (s : String) : Proper (.str s)
  | arr (l : List (Value ν)) (hitems : ∀ v ∈ l, Proper v) : Proper (.arr l)
  | obj (fs : List (String × Value ν)) (hkeys : (fs.map Prod.fst).Nodup)
      (hfields : ∀ f ∈ fs, Proper f.2) : Proper (.obj fs)

def startsNumber (c : Char) : Bool := c.isDigit || decide (c = '-')

def isNumeric (c : Char) : Bool := c.isDigit || decide (c ∈ ['+', '-', '.', 'e', 'E'])

/-- How numbers are written and read. -/
structure Numbers (ν : Type) where
  text : ν → List Char
  read : List Char → Option ν
  read_text : ∀ n, read (text n) = some n
  numeric : ∀ n, ∀ c ∈ text n, isNumeric c = true
  starts : ∀ n, ∃ c cs, text n = c :: cs ∧ startsNumber c = true

section Write

/-- The letter that stands for a character behind a backslash. -/
def shortOf (c : Char) : Option Char :=
  if c = '"' then some '"'
  else if c = '\\' then some '\\'
  else if c = '\x08' then some 'b'
  else if c = '\x0c' then some 'f'
  else if c = '\n' then some 'n'
  else if c = '\r' then some 'r'
  else if c = '\t' then some 't'
  else none

def escaped (c : Char) : List Char :=
  match shortOf c with
  | some d => ['\\', d]
  | none =>
    if c.toNat < 32 then
      ['\\', 'u', '0', '0', Nat.digitChar (c.toNat / 16), Nat.digitChar (c.toNat % 16)]
    else [c]

def quoted (s : String) : List Char := '"' :: (s.toList.flatMap escaped ++ ['"'])

variable (N : Numbers ν)

/-- What stands before an item that is not the first. -/
def comma (first : Bool) : List Char := if first then [] else [',']

mutual
def write : Value ν → List Char
  | .null => ['n', 'u', 'l', 'l']
  | .bool true => ['t', 'r', 'u', 'e']
  | .bool false => ['f', 'a', 'l', 's', 'e']
  | .num n => N.text n
  | .str s => quoted s
  | .arr l => '[' :: writeItems true l
  | .obj fs => '{' :: writeFields true fs

/-- The items and the bracket behind them. -/
def writeItems : Bool → List (Value ν) → List Char
  | _, [] => [']']
  | first, v :: l => comma first ++ (write v ++ writeItems false l)

def writeFields : Bool → List (String × Value ν) → List Char
  | _, [] => ['}']
  | first, (k, v) :: fs => comma first ++ (quoted k ++ ':' :: (write v ++ writeFields false fs))
end

end Write

section Read

/-- What a string is read for. -/
inductive Place (ν : Type)
  | value
  | key (fs : List (String × Value ν))

/-- An array or an object that is still open, with what it holds so far. -/
inductive Frame (ν : Type)
  | arr (l : List (Value ν))
  | obj (fs : List (String × Value ν)) (key : String)

/-- What is being read. Strings are read as UTF-16 code units. -/
inductive Reading (ν : Type)
  | value (empty : Bool)
  | key (empty : Bool) (fs : List (String × Value ν))
  | str (place : Place ν) (us : List Nat)
  | escape (place : Place ν) (us : List Nat)
  | hex (place : Place ν) (us : List Nat) (n left : Nat)
  | colon (fs : List (String × Value ν)) (key : String)
  | literal (rest : List Char) (v : Value ν)
  | number (text : List Char)
  | done (v : Value ν)

abbrev State (ν : Type) := List (Frame ν) × Reading ν

def isSpace (c : Char) : Bool := decide (c ∈ [' ', '\t', '\n', '\r'])

/-- A later field of the same name takes the place of the earlier one. -/
def put : List (String × Value ν) → String → Value ν → List (String × Value ν)
  | [], k, v => [(k, v)]
  | (k', v') :: fs, k, v => if k' = k then (k, v) :: fs else (k', v') :: put fs k v

def isHigh (n : Nat) : Bool := decide (0xD800 ≤ n ∧ n < 0xDC00)

def isLow (n : Nat) : Bool := decide (0xDC00 ≤ n ∧ n < 0xE000)

/-- A lone half of a pair is no character. -/
def unit (n : Nat) : Char := if n.isValidChar then Char.ofNat n else Char.ofNat 0xFFFD

/-- The characters of code units. A character beyond the first plane may stand for its pair. -/
def join : List Nat → List Char
  | h :: l :: us =>
    if isHigh h && isLow l then
      Char.ofNat (0x10000 + (h - 0xD800) * 0x400 + (l - 0xDC00)) :: join us
    else unit h :: join (l :: us)
  | [n] => [unit n]
  | [] => []

def hexValue (c : Char) : Option Nat :=
  if c.isDigit then some (c.toNat - '0'.toNat)
  else if 'a' ≤ c ∧ c ≤ 'f' then some (c.toNat - 'a'.toNat + 10)
  else if 'A' ≤ c ∧ c ≤ 'F' then some (c.toNat - 'A'.toNat + 10)
  else none

/-- The character that a letter behind a backslash stands for. -/
def ofShort (c : Char) : Option Char :=
  if c = '"' ∨ c = '\\' ∨ c = '/' then some c
  else if c = 'b' then some '\x08'
  else if c = 'f' then some '\x0c'
  else if c = 'n' then some '\n'
  else if c = 'r' then some '\r'
  else if c = 't' then some '\t'
  else none

/-- The first character of a value. -/
def startValue (empty : Bool) (c : Char) (fr : List (Frame ν)) : Option (State ν) :=
  if isSpace c then some (fr, .value empty)
  else if c = '"' then some (fr, .str .value [])
  else if c = '[' then some (.arr [] :: fr, .value true)
  else if c = '{' then some (fr, .key true [])
  else if c = 'n' then some (fr, .literal ['u', 'l', 'l'] .null)
  else if c = 't' then some (fr, .literal ['r', 'u', 'e'] (.bool true))
  else if c = 'f' then some (fr, .literal ['a', 'l', 's', 'e'] (.bool false))
  else if startsNumber c then some (fr, .number [c])
  else
    match fr with
    | .arr l :: fr => if c = ']' ∧ empty then some (fr, .done (.arr l)) else none
    | _ => none

def startKey (empty : Bool) (fs : List (String × Value ν)) (c : Char) (fr : List (Frame ν)) :
    Option (State ν) :=
  if isSpace c then some (fr, .key empty fs)
  else if c = '"' then some (fr, .str (.key fs) [])
  else if c = '}' ∧ empty then some (fr, .done (.obj fs))
  else none

/-- What may follow a value. -/
def goOn (v : Value ν) (c : Char) (fr : List (Frame ν)) : Option (State ν) :=
  if isSpace c then some (fr, .done v)
  else
    match fr with
    | [] => none
    | .arr l :: fr =>
      if c = ',' then some (.arr (l ++ [v]) :: fr, .value false)
      else if c = ']' then some (fr, .done (.arr (l ++ [v])))
      else none
    | .obj fs k :: fr =>
      if c = ',' then some (fr, .key false (put fs k v))
      else if c = '}' then some (fr, .done (.obj (put fs k v)))
      else none

def endString (place : Place ν) (us : List Nat) : Reading ν :=
  match place with
  | .value => .done (.str (String.ofList (join us)))
  | .key fs => .colon fs (String.ofList (join us))

variable (N : Numbers ν)

def step (c : Char) : State ν → Option (State ν)
  | (fr, .value empty) => startValue empty c fr
  | (fr, .key empty fs) => startKey empty fs c fr
  | (fr, .str place us) =>
    if c = '"' then some (fr, endString place us)
    else if c = '\\' then some (fr, .escape place us)
    else if c.toNat < 32 then none
    else some (fr, .str place (us ++ [c.toNat]))
  | (fr, .escape place us) =>
    if c = 'u' then some (fr, .hex place us 0 3)
    else (ofShort c).map fun d => (fr, .str place (us ++ [d.toNat]))
  | (fr, .hex place us n left) =>
    (hexValue c).map fun d =>
      (fr, if left = 0 then .str place (us ++ [n * 16 + d]) else .hex place us (n * 16 + d) (left - 1))
  | (fr, .colon fs key) =>
    if isSpace c then some (fr, .colon fs key)
    else if c = ':' then some (.obj fs key :: fr, .value false)
    else none
  | (fr, .literal rest v) =>
    match rest with
    | [] => none
    | d :: rest =>
      if c = d then some (fr, if rest = [] then .done v else .literal rest v) else none
  | (fr, .number text) =>
    if isNumeric c then some (fr, .number (text ++ [c]))
    else (N.read text).bind fun n => goOn (.num n) c fr
  | (fr, .done v) => goOn v c fr

def finish : State ν → Option (Value ν)
  | ([], .done v) => some v
  | ([], .number text) => (N.read text).map .num
  | _ => none

def eval : List Char → State ν → Option (Value ν)
  | [], s => finish N s
  | c :: cs, s => (step N c s).bind (eval cs)

/-- The value that a text denotes, if it denotes one. -/
def read (cs : List Char) : Option (Value ν) := eval N cs ([], .value false)

end Read

section Strings

theorem unit_toNat (c : Char) : unit c.toNat = c := by
  have hvalid : c.toNat.isValidChar := c.valid
  rw [unit, if_pos hvalid, Char.ofNat_toNat]

theorem isHigh_toNat (c : Char) : isHigh c.toNat = false := by
  have hvalid : c.toNat < 0xD800 ∨ 0xDFFF < c.toNat ∧ c.toNat < 0x110000 := c.valid
  simp only [isHigh, decide_eq_false_iff_not]
  omega

theorem join_toNat (cs : List Char) : join (cs.map Char.toNat) = cs := by
  induction cs with
  | nil => rfl
  | cons c cs ih =>
    cases cs with
    | nil => rw [List.map_cons, List.map_nil, join, unit_toNat]
    | cons d cs =>
      rw [List.map_cons, List.map_cons] at *
      rw [join, isHigh_toNat, Bool.false_and, if_neg Bool.false_ne_true, unit_toNat, ih]

theorem ofShort_of_shortOf {c d : Char} (h : shortOf c = some d) :
    d ≠ 'u' ∧ ofShort d = some c := by
  unfold shortOf at h
  repeat' split at h
  all_goals first
    | (rename_i hc
       subst hc
       cases h
       decide)
    | cases h

theorem hexValue_digitChar {n : Nat} (h : n < 16) : hexValue (Nat.digitChar n) = some n := by
  have hall : ∀ k < 16, hexValue (Nat.digitChar k) = some k := by decide
  exact hall n h

variable (N : Numbers ν)

theorem eval_cons (c : Char) (cs : List Char) (s : State ν) :
    eval N (c :: cs) s = (step N c s).bind (eval N cs) := rfl

/-- A character comes back from what it is written as in a string. -/
theorem eval_escaped (c : Char) (rest : List Char) (fr : List (Frame ν)) (place : Place ν)
    (us : List Nat) :
    eval N (escaped c ++ rest) (fr, .str place us) =
      eval N rest (fr, .str place (us ++ [c.toNat])) := by
  rw [escaped]
  cases hs : shortOf c with
  | some d =>
    obtain ⟨hu, hd⟩ := ofShort_of_shortOf hs
    have hslash : step N '\\' (fr, .str place us) = some (fr, .escape place us) := rfl
    have hletter : step N d (fr, .escape place us) = some (fr, .str place (us ++ [c.toNat])) := by
      rw [step, if_neg hu, hd]
      rfl
    simp only [List.cons_append, List.nil_append, eval_cons, hslash, hletter, Option.bind_some]
  | none =>
    by_cases hc : c.toNat < 32
    · have hslash : step N '\\' (fr, .str place us) = some (fr, .escape place us) := rfl
      have hopen : step N 'u' (fr, .escape place us) = some (fr, .hex place us 0 3) := rfl
      have hzero : ∀ left, left ≠ 0 → step N '0' (fr, .hex place us 0 left) =
          some (fr, .hex place us 0 (left - 1)) := by
        intro left hleft
        have hval : hexValue '0' = some 0 := rfl
        rw [step, hval, Option.map_some, if_neg hleft]
      have hhigh : step N (Nat.digitChar (c.toNat / 16)) (fr, .hex place us 0 1) =
          some (fr, .hex place us (c.toNat / 16) 0) := by
        rw [step, hexValue_digitChar (by omega), Option.map_some, if_neg (by decide), Nat.zero_mul,
          Nat.zero_add]
      have hlow : step N (Nat.digitChar (c.toNat % 16)) (fr, .hex place us (c.toNat / 16) 0) =
          some (fr, .str place (us ++ [c.toNat])) := by
        have hsum : c.toNat / 16 * 16 + c.toNat % 16 = c.toNat := by omega
        rw [step, hexValue_digitChar (by omega), Option.map_some, if_pos rfl, hsum]
      dsimp only
      rw [if_pos hc]
      simp only [List.cons_append, List.nil_append, eval_cons, hslash, hopen, hzero 3 (by decide),
        hzero 2 (by decide), hhigh, hlow, Option.bind_some]
    · have hquote : c ≠ '"' := by
        rintro rfl
        cases hs
      have hback : c ≠ '\\' := by
        rintro rfl
        cases hs
      have hraw : step N c (fr, .str place us) = some (fr, .str place (us ++ [c.toNat])) := by
        rw [step, if_neg hquote, if_neg hback, if_neg hc]
      dsimp only
      rw [if_neg hc, List.cons_append, eval_cons, hraw]
      rfl

theorem eval_chars (cs rest : List Char) (fr : List (Frame ν)) (place : Place ν) (us : List Nat) :
    eval N (cs.flatMap escaped ++ rest) (fr, .str place us) =
      eval N rest (fr, .str place (us ++ cs.map Char.toNat)) := by
  induction cs generalizing us with
  | nil =>
    rw [List.map_nil, List.append_nil]
    rfl
  | cons c cs ih =>
    rw [List.flatMap_cons, List.append_assoc, eval_escaped, ih, List.map_cons, List.append_assoc]
    rfl

/-- A string with its closing quote is read as itself. -/
theorem eval_quoted (s : String) (rest : List Char) (fr : List (Frame ν)) (place : Place ν) :
    eval N (s.toList.flatMap escaped ++ '"' :: rest) (fr, .str place []) =
      eval N rest (fr, endString place (s.toList.map Char.toNat)) := by
  rw [eval_chars, List.nil_append]
  rfl

theorem endString_value (s : String) :
    endString (.value : Place ν) (s.toList.map Char.toNat) = .done (.str s) := by
  rw [endString, join_toNat, String.ofList_toList]

theorem endString_key (fs : List (String × Value ν)) (s : String) :
    endString (.key fs) (s.toList.map Char.toNat) = .colon fs s := by
  rw [endString, join_toNat, String.ofList_toList]

end Strings

section RoundTrip
variable (N : Numbers ν)

/-- What may stand behind a number. -/
def Ends (rest : List Char) : Prop := ∀ c, rest.head? = some c → isNumeric c = false

theorem ends_cons {c : Char} (h : isNumeric c = false) (rest : List Char) : Ends (c :: rest) := by
  intro d hd
  rwa [← Option.some.inj hd]

theorem startValue_number {c : Char} (h : startsNumber c = true) (empty : Bool)
    (fr : List (Frame ν)) : startValue empty c fr = some (fr, .number [c]) := by
  have hno : ∀ d, startsNumber d = false → c ≠ d := by
    intro d hd heq
    rw [heq, hd] at h
    cases h
  have hspace : isSpace c = false := by
    simp [isSpace, hno ' ' (by decide), hno '\t' (by decide), hno '\n' (by decide),
      hno '\r' (by decide)]
  unfold startValue
  rw [hspace, if_neg Bool.false_ne_true, if_neg (hno _ (by decide)), if_neg (hno _ (by decide)),
    if_neg (hno _ (by decide)), if_neg (hno _ (by decide)), if_neg (hno _ (by decide)),
    if_neg (hno _ (by decide)), if_pos h]

theorem eval_numeric {cs : List Char} (h : ∀ c ∈ cs, isNumeric c = true) (rest text : List Char)
    (fr : List (Frame ν)) :
    eval N (cs ++ rest) (fr, .number text) = eval N rest (fr, .number (text ++ cs)) := by
  induction cs generalizing text with
  | nil => rw [List.append_nil, List.nil_append]
  | cons c cs ih =>
    have hstep : step N c (fr, .number text) = some (fr, .number (text ++ [c])) := by
      rw [step, if_pos (h c List.mem_cons_self)]
    rw [List.cons_append, eval_cons, hstep, Option.bind_some,
      ih fun d hd => h d (List.mem_cons_of_mem _ hd), List.append_assoc]
    rfl

/-- A number that has been read up to its end. -/
theorem eval_number_end {n : ν} {text rest : List Char} (hread : N.read text = some n)
    (h : Ends rest) (fr : List (Frame ν)) :
    eval N rest (fr, .number text) = eval N rest (fr, .done (.num n)) := by
  cases rest with
  | nil =>
    cases fr with
    | nil => simp [eval, finish, hread]
    | cons f fr => rfl
  | cons c rest =>
    have hstep : step N c (fr, .number text) = step N c (fr, .done (.num n)) := by
      rw [step, if_neg (by rw [h c rfl]; exact Bool.false_ne_true), hread]
      rfl
    rw [eval_cons, eval_cons, hstep]

theorem eval_number (n : ν) {rest : List Char} (h : Ends rest) (fr : List (Frame ν))
    (empty : Bool) :
    eval N (N.text n ++ rest) (fr, .value empty) = eval N rest (fr, .done (.num n)) := by
  obtain ⟨c, cs, htext, hc⟩ := N.starts n
  have hnum := N.numeric n
  have hread := N.read_text n
  rw [htext] at hnum hread
  have hstart : step N c (fr, .value empty) = some (fr, .number [c]) :=
    startValue_number hc empty fr
  rw [htext, List.cons_append, eval_cons, hstart, Option.bind_some,
    eval_numeric N fun d hd => hnum d (List.mem_cons_of_mem _ hd)]
  exact eval_number_end N hread h fr

theorem put_of_not_mem {fs : List (String × Value ν)} {k : String} (h : k ∉ fs.map Prod.fst)
    (v : Value ν) : put fs k v = fs ++ [(k, v)] := by
  induction fs with
  | nil => rfl
  | cons f fs ih =>
    obtain ⟨hk, hfs⟩ := List.ne_and_not_mem_of_not_mem_cons h
    rw [put, if_neg (Ne.symm hk), ih hfs]
    rfl

/-- A value is read from what it is written as. -/
def Reads (v : Value ν) : Prop :=
  ∀ (rest : List Char) (fr : List (Frame ν)) (empty : Bool), Ends rest →
    eval N (write N v ++ rest) (fr, .value empty) = eval N rest (fr, .done v)

theorem ends_items (l : List (Value ν)) (rest : List Char) :
    Ends (writeItems N false l ++ rest) := by
  cases l with
  | nil => exact ends_cons (by decide) rest
  | cons v l => exact ends_cons (by decide) _

theorem ends_fields (fs : List (String × Value ν)) (rest : List Char) :
    Ends (writeFields N false fs ++ rest) := by
  cases fs with
  | nil => exact ends_cons (by decide) rest
  | cons f fs => exact ends_cons (by decide) _

/-- The items behind the first. -/
theorem eval_items {l : List (Value ν)} (h : ∀ v ∈ l, Reads N v) (v : Value ν)
    (l₀ : List (Value ν)) (fr : List (Frame ν)) (rest : List Char) :
    eval N (writeItems N false l ++ rest) (.arr l₀ :: fr, .done v) =
      eval N rest (fr, .done (.arr (l₀ ++ v :: l))) := by
  induction l generalizing v l₀ with
  | nil => rfl
  | cons w l ih =>
    have hcomma : step N ',' (.arr l₀ :: fr, .done v) =
        some (.arr (l₀ ++ [v]) :: fr, .value false) := rfl
    rw [writeItems, comma, if_neg Bool.false_ne_true, List.append_assoc, List.cons_append,
      List.nil_append, List.append_assoc, eval_cons, hcomma, Option.bind_some,
      h w List.mem_cons_self _ _ _ (ends_items N l rest),
      ih fun u hu => h u (List.mem_cons_of_mem _ hu), List.append_assoc]
    rfl

/-- One field, up to what stands behind its value. -/
theorem eval_field {v : Value ν} (h : Reads N v) (k : String) (fs₀ : List (String × Value ν))
    (fr : List (Frame ν)) (empty : Bool) {rest : List Char} (hrest : Ends rest) :
    eval N (quoted k ++ ':' :: (write N v ++ rest)) (fr, .key empty fs₀) =
      eval N rest (.obj fs₀ k :: fr, .done v) := by
  have hquote : step N '"' (fr, .key empty fs₀) = some (fr, .str (.key fs₀) []) := rfl
  have hcolon : step N ':' (fr, .colon fs₀ k) = some (.obj fs₀ k :: fr, .value false) := rfl
  rw [quoted, List.cons_append, eval_cons, hquote, Option.bind_some, List.append_assoc,
    List.cons_append, List.nil_append, eval_quoted, endString_key, eval_cons, hcolon,
    Option.bind_some, h _ _ _ hrest]

/-- The fields behind the first. -/
theorem eval_fields {fs : List (String × Value ν)} (h : ∀ f ∈ fs, Reads N f.2) (k : String)
    (v : Value ν) (fs₀ : List (String × Value ν))
    (hkeys : ((fs₀ ++ (k, v) :: fs).map Prod.fst).Nodup) (fr : List (Frame ν))
    (rest : List Char) :
    eval N (writeFields N false fs ++ rest) (.obj fs₀ k :: fr, .done v) =
      eval N rest (fr, .done (.obj (fs₀ ++ (k, v) :: fs))) := by
  induction fs generalizing k v fs₀ with
  | nil =>
    have hk : k ∉ fs₀.map Prod.fst := by
      rw [List.map_append, List.map_cons, List.nodup_append] at hkeys
      intro hmem
      exact hkeys.2.2 k hmem k List.mem_cons_self rfl
    have hclose : step N '}' (.obj fs₀ k :: fr, .done v) =
        some (fr, .done (.obj (put fs₀ k v))) := rfl
    rw [writeFields, List.cons_append, List.nil_append, eval_cons, hclose, put_of_not_mem hk]
    rfl
  | cons f fs ih =>
    have hk : k ∉ fs₀.map Prod.fst := by
      rw [List.map_append, List.map_cons, List.nodup_append] at hkeys
      intro hmem
      exact hkeys.2.2 k hmem k List.mem_cons_self rfl
    have hcomma : step N ',' (.obj fs₀ k :: fr, .done v) =
        some (fr, .key false (put fs₀ k v)) := rfl
    have happ : fs₀ ++ (k, v) :: f :: fs = fs₀ ++ [(k, v)] ++ f :: fs := by simp
    rw [happ] at hkeys ⊢
    rw [writeFields, comma, if_neg Bool.false_ne_true, List.append_assoc, List.cons_append,
      List.nil_append, List.append_assoc, List.cons_append, List.append_assoc, eval_cons, hcomma,
      Option.bind_some, put_of_not_mem hk,
      eval_field N (h f List.mem_cons_self) _ _ _ _ (ends_fields N fs rest),
      ih (fun g hg => h g (List.mem_cons_of_mem _ hg)) f.1 f.2 _ hkeys]

/-- What is written is read as the value that it was written from. -/
theorem reads_of_proper {v : Value ν} (h : v.Proper) : Reads N v := by
  induction h with
  | null =>
    intro rest fr empty hrest
    rfl
  | bool b =>
    intro rest fr empty hrest
    cases b with
    | true => rfl
    | false => rfl
  | num n =>
    intro rest fr empty hrest
    exact eval_number N n hrest fr empty
  | str s =>
    intro rest fr empty hrest
    have hquote : step N '"' (fr, .value empty) = some (fr, .str .value []) := rfl
    rw [write, quoted, List.cons_append, eval_cons, hquote, Option.bind_some, List.append_assoc,
      List.cons_append, List.nil_append, eval_quoted, endString_value]
  | arr l hitems ih =>
    intro rest fr empty hrest
    have hopen : step N '[' (fr, .value empty) = some (.arr [] :: fr, .value true) := rfl
    rw [write, List.cons_append, eval_cons, hopen, Option.bind_some]
    cases l with
    | nil => rfl
    | cons v l =>
      rw [writeItems, comma, if_pos rfl, List.nil_append, List.append_assoc,
        ih v List.mem_cons_self _ _ _ (ends_items N l rest),
        eval_items N fun u hu => ih u (List.mem_cons_of_mem _ hu)]
      rfl
  | obj fs hkeys hfields ih =>
    intro rest fr empty hrest
    have hopen : step N '{' (fr, .value empty) = some (fr, .key true []) := rfl
    rw [write, List.cons_append, eval_cons, hopen, Option.bind_some]
    cases fs with
    | nil => rfl
    | cons f fs =>
      rw [writeFields, comma, if_pos rfl, List.nil_append, List.append_assoc, List.cons_append,
        List.append_assoc, eval_field N (ih f List.mem_cons_self) _ _ _ _ (ends_fields N fs rest),
        eval_fields N (fun g hg => ih g (List.mem_cons_of_mem _ hg)) f.1 f.2 [] hkeys]
      rfl

/-- Reading undoes writing. -/
theorem read_write {v : Value ν} (h : v.Proper) : read N (write N v) = some v := by
  have heval := reads_of_proper N h [] [] false (by intro c hc; cases hc)
  rw [List.append_nil] at heval
  exact heval

end RoundTrip

section Marks

/-- Reading never takes more of these characters out of a text than the value needs when it is
written again. -/
def mark (c : Char) : Nat := if c = '\\' ∨ c = 'u' ∨ c = '\'' then 1 else 0

def marks (cs : List Char) : Nat := (cs.map mark).sum

theorem marks_append (l r : List Char) : marks (l ++ r) = marks l + marks r := by
  simp [marks]

theorem marks_cons (c : Char) (cs : List Char) : marks (c :: cs) = mark c + marks cs := rfl

theorem mark_le (c : Char) : mark c ≤ 1 := by
  rw [mark]
  split <;> omega

theorem mark_of_numeric {c : Char} (h : isNumeric c = true) : mark c = 0 := by
  have hno : ∀ d, isNumeric d = false → c ≠ d := by
    intro d hd heq
    rw [heq, hd] at h
    cases h
  rw [mark, if_neg]
  simp [hno '\\' (by decide), hno 'u' (by decide), hno '\'' (by decide)]

theorem marks_of_numeric {cs : List Char} (h : ∀ c ∈ cs, isNumeric c = true) : marks cs = 0 := by
  induction cs with
  | nil => rfl
  | cons c cs ih =>
    rw [marks_cons, mark_of_numeric (h c List.mem_cons_self),
      ih fun d hd => h d (List.mem_cons_of_mem _ hd)]

theorem marks_escaped_le (c : Char) : marks (escaped c) ≤ 2 := by
  rw [escaped]
  cases shortOf c with
  | some d =>
    have hd := mark_le d
    have hslash : mark '\\' = 1 := rfl
    simp only [marks_cons, hslash]
    simp only [marks, List.map_nil, List.sum_nil]
    omega
  | none =>
    by_cases hc : c.toNat < 32
    · have hdigit : ∀ k < 16, mark (Nat.digitChar k) = 0 := by decide
      have hslash : mark '\\' = 1 := rfl
      have hu : mark 'u' = 1 := rfl
      have hzero : mark '0' = 0 := rfl
      dsimp only
      rw [if_pos hc]
      simp only [marks_cons, hdigit (c.toNat / 16) (by omega), hdigit (c.toNat % 16) (by omega),
        hslash, hu, hzero]
      simp [marks]
    · have hm := mark_le c
      dsimp only
      rw [if_neg hc, marks_cons]
      simp only [marks, List.map_nil, List.sum_nil]
      omega

/-- What a code unit takes when it is written again. A pair takes nothing. -/
def unitMarks (n : Nat) : Nat := if isHigh n || isLow n then 2 else marks (escaped (unit n))

theorem unitMarks_le (n : Nat) : unitMarks n ≤ 2 := by
  rw [unitMarks]
  split
  · exact Nat.le_refl 2
  · exact marks_escaped_le _

theorem marks_unit_le (n : Nat) : marks (escaped (unit n)) ≤ unitMarks n := by
  rw [unitMarks]
  split
  · exact marks_escaped_le _
  · exact Nat.le_refl _

theorem marks_join_le (us : List Nat) :
    marks ((join us).flatMap escaped) ≤ (us.map unitMarks).sum := by
  fun_induction join us with
  | case1 h l us hpair ih =>
    obtain ⟨hh, hl⟩ := Bool.and_eq_true_iff.1 hpair
    have hc := marks_escaped_le (Char.ofNat (0x10000 + (h - 0xD800) * 0x400 + (l - 0xDC00)))
    have hunit : unitMarks h = 2 := by rw [unitMarks, hh, Bool.true_or, if_pos rfl]
    rw [List.flatMap_cons, marks_append, List.map_cons, List.map_cons, List.sum_cons,
      List.sum_cons, hunit]
    omega
  | case2 h l us hpair ih =>
    have hc := marks_unit_le h
    rw [List.flatMap_cons, marks_append, List.map_cons, List.sum_cons]
    omega
  | case3 n =>
    have hc := marks_unit_le n
    simpa using hc
  | case4 => exact Nat.le_refl 0

variable (N : Numbers ν)

def itemsMarks (l : List (Value ν)) : Nat := (l.map fun v => marks (write N v)).sum

def fieldMarks (k : String) (v : Value ν) : Nat := marks (quoted k) + marks (write N v)

def fieldsMarks (fs : List (String × Value ν)) : Nat := (fs.map fun f => fieldMarks N f.1 f.2).sum

theorem marks_writeItems (first : Bool) (l : List (Value ν)) :
    marks (writeItems N first l) = itemsMarks N l := by
  have hcomma : ∀ b, marks (comma b) = 0 := by decide
  induction l generalizing first with
  | nil => rfl
  | cons v l ih =>
    rw [writeItems, marks_append, marks_append, hcomma, ih]
    simp [itemsMarks]

theorem marks_writeFields (first : Bool) (fs : List (String × Value ν)) :
    marks (writeFields N first fs) = fieldsMarks N fs := by
  have hcomma : ∀ b, marks (comma b) = 0 := by decide
  have hcolon : mark ':' = 0 := rfl
  induction fs generalizing first with
  | nil => rfl
  | cons f fs ih =>
    rw [writeFields, marks_append, marks_append, marks_cons, marks_append, hcomma, hcolon, ih]
    simp [fieldsMarks, fieldMarks]
    omega

theorem fieldsMarks_append (l r : List (String × Value ν)) :
    fieldsMarks N (l ++ r) = fieldsMarks N l + fieldsMarks N r := by
  simp [fieldsMarks]

theorem fieldsMarks_put_le (fs : List (String × Value ν)) (k : String) (v : Value ν) :
    fieldsMarks N (put fs k v) ≤ fieldsMarks N fs + fieldMarks N k v := by
  induction fs with
  | nil => simp [put, fieldsMarks]
  | cons f fs ih =>
    rw [put]
    split
    · simp only [fieldsMarks, List.map_cons, List.sum_cons]
      omega
    · simp only [fieldsMarks, List.map_cons, List.sum_cons] at ih ⊢
      omega

theorem marks_quoted (s : String) : marks (quoted s) = marks (s.toList.flatMap escaped) := by
  have hquote : mark '"' = 0 := rfl
  rw [quoted, marks_cons, marks_append, marks_cons, hquote]
  simp [marks]

def frameMarks : Frame ν → Nat
  | .arr l => itemsMarks N l
  | .obj fs k => fieldsMarks N fs + marks (quoted k)

def framesMarks (fr : List (Frame ν)) : Nat := (fr.map (frameMarks N)).sum

def placeMarks : Place ν → Nat
  | .value => 0
  | .key fs => fieldsMarks N fs

def readingMarks : Reading ν → Nat
  | .value _ => 0
  | .key _ fs => fieldsMarks N fs
  | .str place us => placeMarks N place + (us.map unitMarks).sum
  | .escape place us => placeMarks N place + (us.map unitMarks).sum + 1
  | .hex place us _ _ => placeMarks N place + (us.map unitMarks).sum + 2
  | .colon fs k => fieldsMarks N fs + marks (quoted k)
  | .literal rest v => marks (write N v) - marks rest
  | .number _ => 0
  | .done v => marks (write N v)

def stateMarks (s : State ν) : Nat := framesMarks N s.1 + readingMarks N s.2

theorem framesMarks_cons (f : Frame ν) (fr : List (Frame ν)) :
    framesMarks N (f :: fr) = frameMarks N f + framesMarks N fr := rfl

theorem unitMarks_ofShort {c d : Char} (h : ofShort c = some d) :
    unitMarks d.toNat ≤ 1 + mark c := by
  unfold ofShort at h
  repeat' split at h
  all_goals first
    | (rename_i hc
       rcases hc with rfl | rfl | rfl
       all_goals
         cases h
         decide)
    | cases h

theorem isLow_toNat (c : Char) : isLow c.toNat = false := by
  have hvalid : c.toNat < 0xD800 ∨ 0xDFFF < c.toNat ∧ c.toNat < 0x110000 := c.valid
  simp only [isLow, decide_eq_false_iff_not]
  omega

/-- A character that may stand in a string as it is. -/
theorem unitMarks_raw {c : Char} (hquote : c ≠ '"') (hback : c ≠ '\\') (hc : ¬ c.toNat < 32) :
    unitMarks c.toNat = mark c := by
  have hno : ∀ d : Char, d.toNat < 32 → c ≠ d := by
    intro d hd heq
    rw [heq] at hc
    exact hc hd
  have hshort : shortOf c = none := by
    rw [shortOf, if_neg hquote, if_neg hback, if_neg (hno _ (by decide)), if_neg (hno _ (by decide)),
      if_neg (hno _ (by decide)), if_neg (hno _ (by decide)), if_neg (hno _ (by decide))]
  have hesc : escaped c = [c] := by
    rw [escaped, hshort]
    exact if_neg hc
  rw [unitMarks, isHigh_toNat, isLow_toNat, Bool.or_false, if_neg Bool.false_ne_true, unit_toNat,
    hesc]
  rfl

theorem endString_marks (place : Place ν) (us : List Nat) :
    readingMarks N (endString place us) ≤ placeMarks N place + (us.map unitMarks).sum := by
  have hjoin := marks_join_le us
  cases place with
  | value =>
    rw [endString, readingMarks, write, marks_quoted, String.toList_ofList]
    omega
  | key fs =>
    rw [endString, readingMarks, marks_quoted, String.toList_ofList, placeMarks]
    omega

theorem marks_arr (l : List (Value ν)) : marks (write N (.arr l)) = itemsMarks N l := by
  have hopen : mark '[' = 0 := rfl
  rw [write, marks_cons, hopen, Nat.zero_add, marks_writeItems]

theorem marks_obj (fs : List (String × Value ν)) :
    marks (write N (.obj fs)) = fieldsMarks N fs := by
  have hopen : mark '{' = 0 := rfl
  rw [write, marks_cons, hopen, Nat.zero_add, marks_writeFields]

theorem itemsMarks_append (l : List (Value ν)) (v : Value ν) :
    itemsMarks N (l ++ [v]) = itemsMarks N l + marks (write N v) := by
  simp [itemsMarks]

theorem startValue_marks {empty : Bool} {c : Char} {fr : List (Frame ν)} {s : State ν}
    (h : startValue empty c fr = some s) : stateMarks N s ≤ framesMarks N fr := by
  have hliteral : ∀ cs v, marks (write N v) ≤ marks cs →
      stateMarks N (fr, .literal cs v) ≤ framesMarks N fr := by
    intro cs v hle
    simp only [stateMarks, readingMarks]
    omega
  unfold startValue at h
  repeat' split at h
  all_goals cases h
  · exact Nat.le_refl _
  · exact Nat.le_refl _
  · rw [stateMarks, framesMarks_cons, frameMarks]
    simp [itemsMarks, readingMarks]
  · exact Nat.le_refl _
  · exact hliteral _ _ (Nat.le_refl _)
  · exact hliteral _ _ (Nat.le_refl _)
  · exact hliteral _ _ (Nat.le_refl _)
  · exact Nat.le_refl _
  · rw [stateMarks, framesMarks_cons, frameMarks, readingMarks, marks_arr]
    exact Nat.le_of_eq (Nat.add_comm _ _)

theorem goOn_marks {v : Value ν} {c : Char} {fr : List (Frame ν)} {s : State ν}
    (h : goOn v c fr = some s) :
    stateMarks N s ≤ framesMarks N fr + marks (write N v) := by
  have hput : ∀ fs k, fieldsMarks N (put fs k v) ≤
      fieldsMarks N fs + (marks (quoted k) + marks (write N v)) := by
    intro fs k
    exact fieldsMarks_put_le N fs k v
  unfold goOn at h
  repeat' split at h
  all_goals cases h
  · exact Nat.le_refl _
  · simp only [stateMarks, framesMarks_cons, frameMarks, readingMarks, itemsMarks_append]
    omega
  · simp only [stateMarks, framesMarks_cons, frameMarks, readingMarks, marks_arr,
      itemsMarks_append]
    omega
  · rename_i fs k fr _
    have hle := hput fs k
    simp only [stateMarks, framesMarks_cons, frameMarks, readingMarks]
    omega
  · rename_i fs k fr _ _
    have hle := hput fs k
    simp only [stateMarks, framesMarks_cons, frameMarks, readingMarks, marks_obj]
    omega

theorem marks_num (n : ν) : marks (write N (.num n)) = 0 := by
  rw [write]
  exact marks_of_numeric (N.numeric n)

/-- Reading a character adds no more than the character has. -/
theorem step_marks {c : Char} {s t : State ν} (h : step N c s = some t) :
    stateMarks N t ≤ stateMarks N s + mark c := by
  obtain ⟨fr, r⟩ := s
  cases r with
  | value empty =>
    have hle := startValue_marks N h
    simp only [stateMarks, readingMarks] at hle ⊢
    omega
  | key empty fs =>
    have h' : startKey empty fs c fr = some t := h
    unfold startKey at h'
    repeat' split at h'
    all_goals cases h'
    · simp only [stateMarks, readingMarks]
      omega
    · simp [stateMarks, readingMarks, placeMarks]
    · simp only [stateMarks, readingMarks, marks_obj]
      omega
  | str place us =>
    rw [step] at h
    repeat' split at h
    all_goals cases h
    · have hle := endString_marks N place us
      have hend : stateMarks N (fr, endString place us) =
          framesMarks N fr + readingMarks N (endString place us) := rfl
      have hstr : stateMarks N (fr, .str place us) =
          framesMarks N fr + (placeMarks N place + (us.map unitMarks).sum) := rfl
      omega
    · rename_i hback
      rw [hback]
      exact Nat.le_refl _
    · rename_i hquote hback hc
      have hraw := unitMarks_raw hquote hback hc
      simp only [stateMarks, readingMarks, List.map_append, List.sum_append, List.map_cons,
        List.map_nil, List.sum_cons, List.sum_nil]
      omega
  | escape place us =>
    rw [step] at h
    split at h
    · rename_i hu
      cases h
      rw [hu]
      exact Nat.le_refl _
    · obtain ⟨d, hd, rfl⟩ := Option.map_eq_some_iff.1 h
      have hle := unitMarks_ofShort hd
      simp only [stateMarks, readingMarks, List.map_append, List.sum_append, List.map_cons,
        List.map_nil, List.sum_cons, List.sum_nil]
      omega
  | hex place us n left =>
    rw [step] at h
    obtain ⟨d, hd, rfl⟩ := Option.map_eq_some_iff.1 h
    have hle := unitMarks_le (n * 16 + d)
    split
    · simp only [stateMarks, readingMarks, List.map_append, List.sum_append, List.map_cons,
        List.map_nil, List.sum_cons, List.sum_nil]
      omega
    · simp only [stateMarks, readingMarks]
      omega
  | colon fs key =>
    rw [step] at h
    repeat' split at h
    all_goals cases h
    · simp only [stateMarks, readingMarks]
      omega
    · simp only [stateMarks, framesMarks_cons, frameMarks, readingMarks]
      omega
  | literal rest v =>
    cases rest with
    | nil => cases h
    | cons d rest =>
      have hstep : (if c = d then some (fr, if rest = [] then Reading.done v else .literal rest v)
          else none) = some t := h
      split at hstep
      · rename_i hc
        cases hstep
        subst hc
        split
        · rename_i hrest
          subst hrest
          simp only [stateMarks, readingMarks, marks_cons]
          have hnil : marks [] = 0 := rfl
          omega
        · simp only [stateMarks, readingMarks, marks_cons]
          omega
      · cases hstep
  | number text =>
    rw [step] at h
    split at h
    · cases h
      simp only [stateMarks, readingMarks]
      omega
    · obtain ⟨n, hn, hgo⟩ := Option.bind_eq_some_iff.1 h
      have hle := goOn_marks N hgo
      rw [marks_num] at hle
      simp only [stateMarks, readingMarks] at hle ⊢
      omega
  | done v =>
    have hle := goOn_marks N h
    simp only [stateMarks, readingMarks] at hle ⊢
    omega

/-- A value that was read has no more of these characters when it is written again. -/
theorem eval_marks {cs : List Char} {s : State ν} {v : Value ν} (h : eval N cs s = some v) :
    marks (write N v) ≤ stateMarks N s + marks cs := by
  induction cs generalizing s with
  | nil =>
    obtain ⟨fr, r⟩ := s
    rw [eval] at h
    unfold finish at h
    split at h
    · rename_i w hs
      cases h
      obtain ⟨rfl, rfl⟩ := Prod.mk.inj hs
      simp only [stateMarks, readingMarks]
      omega
    · obtain ⟨n, hn, rfl⟩ := Option.map_eq_some_iff.1 h
      rw [marks_num]
      exact Nat.zero_le _
    · cases h
  | cons c cs ih =>
    rw [eval_cons] at h
    obtain ⟨t, ht, hrest⟩ := Option.bind_eq_some_iff.1 h
    have hstep := step_marks N ht
    have hle := ih hrest
    rw [marks_cons]
    omega

theorem read_marks {cs : List Char} {v : Value ν} (h : read N cs = some v) :
    marks (write N v) ≤ marks cs := by
  have hle := eval_marks N h
  have hstart : stateMarks N (([], .value false) : State ν) = 0 := rfl
  omega

end Marks

section Contained
variable (N : Numbers ν)

/-- Fields of different names weigh no more than any object that has them all. -/
theorem fieldsMarks_le_of_subset {fs gs : List (String × Value ν)} (hkeys : (fs.map Prod.fst).Nodup)
    (h : ∀ f ∈ fs, f ∈ gs) : fieldsMarks N fs ≤ fieldsMarks N gs := by
  induction fs generalizing gs with
  | nil => exact Nat.zero_le _
  | cons f fs ih =>
    obtain ⟨l, r, rfl⟩ := List.append_of_mem (h f List.mem_cons_self)
    rw [List.map_cons, List.nodup_cons] at hkeys
    have hrest : ∀ g ∈ fs, g ∈ l ++ r := by
      intro g hg
      have hne : g ≠ f := by
        intro heq
        apply hkeys.1
        rw [← heq]
        exact List.mem_map_of_mem hg
      have hmem := h g (List.mem_cons_of_mem _ hg)
      rw [List.mem_append, List.mem_cons] at hmem
      rw [List.mem_append]
      rcases hmem with hl | heq | hr
      · exact .inl hl
      · exact (hne heq).elim
      · exact .inr hr
    have hle := ih hkeys.2 hrest
    rw [fieldsMarks_append] at hle ⊢
    simp only [fieldsMarks, List.map_cons, List.sum_cons] at hle ⊢
    omega

end Contained

section Apostrophes
variable (N : Numbers ν)

theorem mem_escaped_iff (c : Char) : '\'' ∈ escaped c ↔ c = '\'' := by
  have hslash : '\'' ≠ '\\' := by decide
  constructor
  · intro h
    rw [escaped] at h
    cases hs : shortOf c with
    | some d =>
      rw [hs] at h
      have hd : '\'' ≠ d := by
        rintro rfl
        have hno := (ofShort_of_shortOf hs).2
        cases hno
      simp [hslash, hd] at h
    | none =>
      rw [hs] at h
      dsimp only at h
      split at h
      · have hdigit : ∀ k < 16, '\'' ≠ Nat.digitChar k := by decide
        have hhigh := hdigit (c.toNat / 16) (by omega)
        have hlow := hdigit (c.toNat % 16) (by omega)
        simp [hhigh, hlow] at h
      · exact (List.mem_singleton.1 h).symm
  · rintro rfl
    decide

theorem mem_quoted_iff (s : String) : '\'' ∈ quoted s ↔ '\'' ∈ s.toList := by
  rw [quoted]
  simp [mem_escaped_iff]

theorem mem_writeItems_iff (first : Bool) (l : List (Value ν)) :
    '\'' ∈ writeItems N first l ↔ ∃ v ∈ l, '\'' ∈ write N v := by
  have hcomma : ∀ b, '\'' ∉ comma b := by decide
  induction l generalizing first with
  | nil => simp [writeItems]
  | cons v l ih => simp [writeItems, hcomma, ih]

theorem mem_writeFields_iff (first : Bool) (fs : List (String × Value ν)) :
    '\'' ∈ writeFields N first fs ↔
      ∃ f ∈ fs, '\'' ∈ f.1.toList ∨ '\'' ∈ write N f.2 := by
  have hcomma : ∀ b, '\'' ∉ comma b := by decide
  induction fs generalizing first with
  | nil => simp [writeFields]
  | cons f fs ih => simp [writeFields, hcomma, ih, mem_quoted_iff, or_assoc]

end Apostrophes

section Integers

def textOfInt : Int → List Char
  | .ofNat n => Nat.toDigits 10 n
  | .negSucc n => '-' :: Nat.toDigits 10 (n + 1)

def natOfText (cs : List Char) : Option Nat :=
  if cs ≠ [] ∧ cs.all Char.isDigit then some (Nat.ofDigitChars 10 cs 0) else none

def intOfText : List Char → Option Int
  | '-' :: cs => (natOfText cs).map fun n => -n
  | cs => (natOfText cs).map Int.ofNat

theorem isDigit_of_mem_toDigits {n : Nat} {c : Char} (h : c ∈ Nat.toDigits 10 n) :
    c.isDigit = true :=
  Nat.isDigit_of_mem_toDigits (by decide) (by decide) h

theorem toDigits_ne_nil (n : Nat) : Nat.toDigits 10 n ≠ [] :=
  List.ne_nil_of_length_pos Nat.length_toDigits_pos

theorem natOfText_toDigits (n : Nat) : natOfText (Nat.toDigits 10 n) = some n := by
  rw [natOfText, if_pos, Nat.ofDigitChars_ten_toDigits]
  exact ⟨toDigits_ne_nil n, List.all_eq_true.2 fun c hc => isDigit_of_mem_toDigits hc⟩

theorem intOfText_digits {cs : List Char} (h : ∀ c ∈ cs, c.isDigit = true) :
    intOfText cs = (natOfText cs).map Int.ofNat := by
  unfold intOfText
  split
  · rename_i cs
    have hdash := h '-' List.mem_cons_self
    cases hdash
  · rfl

/-- The integers alone. -/
def integers : Numbers Int where
  text := textOfInt
  read := intOfText
  read_text := by
    intro n
    cases n with
    | ofNat n =>
      rw [textOfInt, intOfText_digits fun c hc => isDigit_of_mem_toDigits hc, natOfText_toDigits]
      rfl
    | negSucc n =>
      rw [textOfInt, intOfText, natOfText_toDigits]
      rfl
  numeric := by
    have hdigit : ∀ n c, c ∈ Nat.toDigits 10 n → isNumeric c = true := by
      intro n c hc
      rw [isNumeric, isDigit_of_mem_toDigits hc, Bool.true_or]
    intro n c hc
    cases n with
    | ofNat n => exact hdigit n c hc
    | negSucc n =>
      rcases List.mem_cons.1 hc with rfl | hc
      · decide
      · exact hdigit _ c hc
  starts := by
    intro n
    cases n with
    | ofNat n =>
      obtain ⟨c, cs, hcs⟩ := List.exists_cons_of_ne_nil (toDigits_ne_nil n)
      have hc : c ∈ Nat.toDigits 10 n := by
        rw [hcs]
        exact List.mem_cons_self
      exact ⟨c, cs, hcs, by rw [startsNumber, isDigit_of_mem_toDigits hc, Bool.true_or]⟩
    | negSucc n => exact ⟨'-', _, rfl, rfl⟩

/-- An array and an object with a number and an escaped quote. -/
example : (read integers "[ -12, \x7b\"a\": \"\\\"\\u0041\"\x7d ]".toList).map (write integers) =
    some "[-12,\x7b\"a\":\"\\\"A\"\x7d]".toList := by
  decide +kernel

end Integers

end Json

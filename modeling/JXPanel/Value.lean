import JXPanel.Dict

namespace JXPanel
set_option autoImplicit true

/-- The numbers the panel handles are integers and the values that are no finite number. -/
inductive JsNum
  | int (n : Int)
  | nan
  | posInf
  | negInf
deriving DecidableEq

inductive JsVal
  | undefined
  | null
  | bool (b : Bool)
  | num (n : JsNum)
  | str (s : String)
  | arr (l : List JsVal)
  | obj (fs : List (String × JsVal))

/-- An object used as a dictionary. Its own keys are all it has: the names that the
engine's own prototype object holds are not modelled. -/
abbrev Obj := Dict String JsVal

/-- The `{name: 1}` objects that hold the users, plans and domains of a record. -/
abbrev KeySet := Dict String Unit

/-- How a call ends that returns no value: `typeError` is a property read of `undefined` or
a call of a missing method, `stackOverflow` a recursion and `hangs` a loop without end. -/
inductive Fault
  | thrown (msg : String)
  | typeError
  | stackOverflow
  | hangs
deriving DecidableEq

abbrev Js := Except Fault

def JsNum.lt : JsNum → JsNum → Bool
  | .nan, _ => false
  | _, .nan => false
  | .int a, .int b => decide (a < b)
  | .negInf, .negInf => false
  | .negInf, _ => true
  | _, .negInf => false
  | .posInf, _ => false
  | _, .posInf => true

def JsNum.le : JsNum → JsNum → Bool
  | .nan, _ => false
  | _, .nan => false
  | a, b => !b.lt a

def JsNum.neg : JsNum → JsNum
  | .int n => .int (-n)
  | .nan => .nan
  | .posInf => .negInf
  | .negInf => .posInf

/-- `k * n`, as exact as the integers are. -/
def JsNum.times (k : Nat) : JsNum → JsNum
  | .int n => .int (k * n)
  | .nan => .nan
  | n => if k = 0 then .nan else n

def JsNum.plus : JsNum → JsNum → JsNum
  | .int a, .int b => .int (a + b)
  | .nan, _ => .nan
  | _, .nan => .nan
  | .posInf, .negInf => .nan
  | .negInf, .posInf => .nan
  | .int _, b => b
  | a, _ => a

/-- The double that a decimal literal denotes: 53 significant bits, ties to even. -/
def JsNum.ofNat (n : Nat) : JsNum :=
  if n < 2 ^ 53 then .int n
  else
    let e := n.log2 - 52
    let q := n / 2 ^ e
    let r := 2 * (n % 2 ^ e)
    let q' := if 2 ^ e < r ∨ (2 ^ e = r ∧ q % 2 = 1) then q + 1 else q
    if q' * 2 ^ e < 2 ^ 1024 then .int (q' * 2 ^ e : Nat) else .posInf

def digitVal (c : Char) : Option Nat :=
  if c.isDigit then some (c.toNat - '0'.toNat)
  else if 'a' ≤ c ∧ c ≤ 'f' then some (c.toNat - 'a'.toNat + 10)
  else if 'A' ≤ c ∧ c ≤ 'F' then some (c.toNat - 'A'.toNat + 10)
  else none

/-- The longest prefix of digits of a radix, as a number and the count of digits read. -/
def readDigits (radix : Nat) : List Char → Nat → Nat → Nat × Nat
  | [], acc, cnt => (acc, cnt)
  | c :: cs, acc, cnt =>
    match digitVal c with
    | some d => if d < radix then readDigits radix cs (acc * radix + d) (cnt + 1) else (acc, cnt)
    | none => (acc, cnt)

def prefixNumber (radix : Nat) (cs : List Char) : JsNum :=
  match readDigits radix cs 0 0 with
  | (_, 0) => .nan
  | (n, _ + 1) => JsNum.ofNat n

def unsignedPrefix : List Char → JsNum
  | '0' :: 'x' :: cs => prefixNumber 16 cs
  | '0' :: 'X' :: cs => prefixNumber 16 cs
  | cs => prefixNumber 10 cs

def signedPrefix : List Char → JsNum
  | '-' :: cs => (unsignedPrefix cs).neg
  | '+' :: cs => unsignedPrefix cs
  | cs => unsignedPrefix cs

def JsNum.toKey : JsNum → String
  | .int n => toString n
  | .nan => "NaN"
  | .posInf => "Infinity"
  | .negInf => "-Infinity"

/-- White space and the ends of lines, as `String.trim` knows them. -/
def jsSpace (c : Char) : Bool :=
  c.isWhitespace ||
    decide (c.toNat ∈ [0x0b, 0x0c, 0xa0, 0x1680, 0x180e, 0x2028, 0x2029, 0x202f, 0x205f, 0x3000, 0xfeff]) ||
    (decide (0x2000 ≤ c.toNat) && decide (c.toNat ≤ 0x200a))

def trim (cs : List Char) : List Char := ((cs.dropWhile jsSpace).reverse.dropWhile jsSpace).reverse

theorem isWhitespace_iff {c : Char} : c.isWhitespace = true ↔ c = ' ' ∨ c = '\t' ∨ c = '\r' ∨ c = '\n' := by
  simp [Char.isWhitespace, or_assoc]

theorem toNat_of_jsSpace {c : Char} (h : jsSpace c = true) : c.toNat ≤ 32 ∨ 127 < c.toNat := by
  simp only [jsSpace, Bool.or_eq_true, Bool.and_eq_true, decide_eq_true_eq] at h
  rcases h with (h | h) | h
  · left
    rcases isWhitespace_iff.1 h with rfl | rfl | rfl | rfl
    · decide
    · decide
    · decide
    · decide
  · simp only [List.mem_cons, List.not_mem_nil, or_false] at h
    omega
  · exact .inr (by omega)

theorem jsSpace_of_visible {c : Char} (hlow : 32 < c.toNat) (hhigh : c.toNat ≤ 127) : jsSpace c = false := by
  rw [← Bool.not_eq_true]
  intro h
  have hout := toNat_of_jsSpace h
  omega

theorem visible_of_isAlphanum {c : Char} (h : c.isAlphanum = true) : 32 < c.toNat ∧ c.toNat ≤ 127 := by
  simp only [Char.isAlphanum, Char.isAlpha, Char.isUpper, Char.isLower, Char.isDigit, Bool.or_eq_true, Bool.and_eq_true,
    decide_eq_true_eq, ge_iff_le, UInt32.le_iff_toNat_le] at h
  have hval : c.toNat = c.val.toNat := rfl
  have hbounds : ('A'.val.toNat = 65 ∧ 'Z'.val.toNat = 90) ∧ ('a'.val.toNat = 97 ∧ 'z'.val.toNat = 122) ∧
      '0'.val.toNat = 48 ∧ '9'.val.toNat = 57 := by decide
  omega

theorem jsSpace_of_isDigit {c : Char} (h : c.isDigit = true) : jsSpace c = false := by
  have hvisible := visible_of_isAlphanum (Bool.or_eq_true_iff.2 (.inr h))
  exact jsSpace_of_visible hvisible.1 hvisible.2

theorem trim_of_no_space {cs : List Char} (h : ∀ c ∈ cs, jsSpace c = false) : trim cs = cs := by
  have hdrop : ∀ l : List Char, (∀ c ∈ l, jsSpace c = false) → l.dropWhile jsSpace = l := by
    intro l hl
    cases l with
    | nil => rfl
    | cons c l => rw [List.dropWhile_cons, hl c List.mem_cons_self, if_neg Bool.false_ne_true]
  rw [trim, hdrop cs h, hdrop cs.reverse fun c hc => h c (List.mem_reverse.1 hc), List.reverse_reverse]

namespace JsVal

def truthy : JsVal → Bool
  | undefined => false
  | null => false
  | bool b => b
  | num (.int n) => decide (n ≠ 0)
  | num .nan => false
  | num _ => true
  | str s => decide (s ≠ "")
  | arr _ => true
  | obj _ => true

mutual
/-- The property name that a value is turned into, and its text in a message. -/
def toKey : JsVal → String
  | undefined => "undefined"
  | null => "null"
  | bool b => if b then "true" else "false"
  | num n => n.toKey
  | str s => s
  | arr l => ",".intercalate (itemKeys l)
  | obj _ => "[object Object]"

def itemKeys : List JsVal → List String
  | [] => []
  | undefined :: l => "" :: itemKeys l
  | null :: l => "" :: itemKeys l
  | v :: l => v.toKey :: itemKeys l
end

/-- `parseInt(v)`. -/
def parseInt (v : JsVal) : JsNum := signedPrefix (v.toKey.toList.dropWhile jsSpace)

/-- Numbers in strings are read as plain decimal integers. -/
def numberOfChars (cs : List Char) : JsNum :=
  let read (cs : List Char) : JsNum :=
    if cs.all Char.isDigit then prefixNumber 10 cs else .nan
  match cs with
  | [] => .int 0
  | '-' :: cs => (read cs).neg
  | '+' :: cs => read cs
  | cs => read cs

def toNumber : JsVal → JsNum
  | undefined => .nan
  | null => .int 0
  | bool b => .int (if b then 1 else 0)
  | num n => n
  | v => numberOfChars (trim v.toKey.toList)

/-- `a < b`, by text when both are strings and by number otherwise. -/
def lt (a b : JsVal) : Bool :=
  match a, b with
  | str s, str t => decide (s < t)
  | a, b => a.toNumber.lt b.toNumber

/-- `a <= b`: the negation of `b < a` except that nothing is comparable to `NaN`. -/
def le (a b : JsVal) : Bool :=
  match a, b with
  | str s, str t => !decide (t < s)
  | a, b => a.toNumber.le b.toNumber

/-- `a === b` of two values that are not one object. -/
def strictEq : JsVal → JsVal → Bool
  | undefined, undefined => true
  | null, null => true
  | bool a, bool b => a == b
  | num .nan, num .nan => false
  | num a, num b => decide (a = b)
  | str a, str b => decide (a = b)
  | _, _ => false

/-- The own properties of a value. -/
def toObj : JsVal → Obj
  | obj fs => Dict.ofList fs
  | arr l => Dict.ofList (l.zipIdx.map (fun e => (toString e.2, e.1)))
  | _ => Dict.empty

def toKeySet (v : JsVal) : KeySet := v.toObj.mapVals (fun _ _ => ())

def ofNat (n : Nat) : JsVal := num (.int n)

theorem le_ofNat (a : Nat) (b : Int) : le (ofNat a) (num (.int b)) = decide ((a : Int) ≤ b) := by
  simp only [le, ofNat, toNumber, JsNum.le, JsNum.lt, ← decide_not, Int.not_lt]

theorem ofNat_le (a b : Nat) : le (ofNat a) (ofNat b) = decide (a ≤ b) :=
  (le_ofNat a b).trans (decide_eq_decide.2 Int.ofNat_le)

end JsVal

/-- A property read of an absent key. -/
def prop (o : Obj) (k : String) : JsVal := (o.get? k).getD .undefined

example : JsVal.parseInt (.str " 12px") = .int 12 := by decide
example : JsVal.lt (.num .nan) (.num (.int 1)) = false := by decide

end JXPanel

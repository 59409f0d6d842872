import Mathlib.Data.List.Infix
import Mathlib.Tactic.Common

set_option autoImplicit true

/-! How nginx reads the words of simple directives. -/

namespace Nginx

inductive Mode
  | space
  | word
  | dquoted
  | squoted
  /-- Behind a closing quote. -/
  | needSpace
deriving DecidableEq

/-- Where the reader is: after a backslash, after the sign of a variable, in a comment; with the word and
the directive that it is about to read, and the directives before. -/
structure Lexer where
  mode : Mode
  quoted : Bool
  variable_ : Bool
  comment : Bool
  raw : List Char
  args : List (List Char)
  directives : List (List (List Char))
deriving DecidableEq

def isSpace (c : Char) : Bool := decide (c = ' ') || decide (c = '\t') || decide (c = '\r') || decide (c = '\n')

def apostrophe : Char := Char.ofNat 39

/-- The escapes within a word. -/
def unescape : List Char → List Char
  | [] => []
  | [c] => [c]
  | c :: d :: cs =>
    if c = '\\' ∧ (d = '"' ∨ d = apostrophe ∨ d = '\\') then d :: unescape cs
    else if c = '\\' ∧ d = 't' then '\t' :: unescape cs
    else if c = '\\' ∧ d = 'r' then '\r' :: unescape cs
    else if c = '\\' ∧ d = 'n' then '\n' :: unescape cs
    else c :: unescape (d :: cs)

namespace Lexer

/-- Between two directives. -/
def between (directives : List (List (List Char))) : Lexer :=
  { mode := .space, quoted := false, variable_ := false, comment := false, raw := [], args := [], directives }

def start : Lexer := between []

def push (q : Lexer) (c : Char) : Lexer := { q with raw := q.raw ++ [c] }

def endWord (q : Lexer) (mode : Mode) : Lexer :=
  { q with mode, variable_ := false, raw := [], args := q.args ++ [unescape q.raw] }

/-- A semicolon: the next directive is read from the beginning. One behind no word ends an empty statement. -/
def endDirective (q : Lexer) : Lexer :=
  between (if q.args = [] then q.directives else q.directives ++ [q.args])

/-- The first character of a word, or none. -/
def beginWord (q : Lexer) (c : Char) : Option Lexer :=
  if isSpace c then some q
  else if c = ';' then some q.endDirective
  else if c = '\x7b' ∨ c = '\x7d' then none
  else if c = '#' then some { q with comment := true }
  else if c = '\\' then some { q with mode := .word, quoted := true, raw := [c] }
  else if c = '"' then some { q with mode := .dquoted, raw := [] }
  else if c = apostrophe then some { q with mode := .squoted, raw := [] }
  else some { q with mode := .word, raw := [c] }

/-- A character within a word that neither a backslash nor a variable stands in front of. -/
def inWord (q : Lexer) (c : Char) : Option Lexer :=
  let q := { q with variable_ := false }
  if c = '\\' then some { q.push c with quoted := true }
  else if c = '$' then some { q.push c with variable_ := true }
  else match q.mode with
    | .dquoted => some (if c = '"' then q.endWord .needSpace else q.push c)
    | .squoted => some (if c = apostrophe then q.endWord .needSpace else q.push c)
    | _ =>
      if isSpace c then some (q.endWord .space)
      else if c = ';' then some (q.endWord .space).endDirective
      else if c = '\x7b' then none
      else some (q.push c)

def step (q : Lexer) (c : Char) : Option Lexer :=
  if q.comment then some { q with comment := decide (c ≠ '\n') }
  else if q.quoted then some { q.push c with quoted := false }
  else match q.mode with
    | .space => q.beginWord c
    | .needSpace =>
      if isSpace c then some { q with mode := .space }
      else if c = ';' then some q.endDirective
      else if c = ')' then some { q with mode := .word, raw := [c] }
      else none
    | _ => if c = '\x7b' ∧ q.variable_ = true then some (q.push c) else q.inWord c

def run (q : Lexer) : List Char → Option Lexer
  | [] => some q
  | c :: cs => (q.step c).bind fun q => q.run cs

/-- The directives of a text that ends here; the last semicolon may be left out. -/
def finish (q : Lexer) : Option (List (List (List Char))) :=
  if q.quoted then none
  else match q.mode with
    | .dquoted => none
    | .squoted => none
    | .word => some (q.endWord .space).endDirective.directives
    | _ => some q.endDirective.directives

end Lexer

/-- The simple directives that a text consists of. -/
def lex (cs : List Char) : Option (List (List (List Char))) := (Lexer.start.run cs).bind Lexer.finish

namespace Lexer
variable {q q' : Lexer} {c : Char} {cs ds : List Char}

theorem run_append (q : Lexer) (cs ds : List Char) : q.run (cs ++ ds) = (q.run cs).bind fun q => q.run ds := by
  induction cs generalizing q with
  | nil => rfl
  | cons c cs ih =>
    rw [List.cons_append, run, run]
    cases q.step c with
    | none => rfl
    | some q' => exact ih q'

/-- Where a semicolon ends a directive. -/
structure Live (q : Lexer) : Prop where
  quoted : q.quoted = false
  comment : q.comment = false
  mode : q.mode ≠ .dquoted ∧ q.mode ≠ .squoted

/-- Where a directive is about to begin. -/
structure Ended (q : Lexer) (directives : List (List (List Char))) : Prop where
  mode : q.mode = .space
  quoted : q.quoted = false
  comment : q.comment = false
  args : q.args = []
  directives : q.directives = directives

/-- The state behind the word that is being read. -/
def close (q : Lexer) : Lexer :=
  match q.mode with
  | .word => q.endWord .space
  | _ => { q with mode := .space }

theorem isSpace_iff {c : Char} : isSpace c = true ↔ c = ' ' ∨ c = '\t' ∨ c = '\r' ∨ c = '\n' := by
  simp [isSpace, or_assoc]

theorem Live.step_word (h : q.Live) (hm : q.mode = .word) (c : Char) :
    q.step c = if c = '\x7b' ∧ q.variable_ = true then some (q.push c) else q.inWord c := by
  rw [step, h.comment, h.quoted, hm]
  rfl

/-- White space ends a word. -/
theorem Live.step_space (h : q.Live) (hc : isSpace c = true) : q.step c = some q.close := by
  cases hm : q.mode with
  | word =>
    have hword : ¬(c = '\x7b' ∧ q.variable_ = true) ∧ c ≠ '\\' ∧ c ≠ '$' := by
      rcases isSpace_iff.1 hc with rfl | rfl | rfl | rfl <;> simp
    rw [h.step_word hm, if_neg hword.1, inWord, if_neg hword.2.1, if_neg hword.2.2, close, hm]
    exact if_pos hc
  | dquoted => exact absurd hm h.mode.1
  | squoted => exact absurd hm h.mode.2
  | space =>
    obtain ⟨mode, quoted, variable_, comment, raw, args, directives⟩ := q
    obtain ⟨rfl, rfl, -⟩ := h
    cases hm
    exact if_pos hc
  | needSpace =>
    obtain ⟨mode, quoted, variable_, comment, raw, args, directives⟩ := q
    obtain ⟨rfl, rfl, -⟩ := h
    cases hm
    exact if_pos hc

/-- A semicolon ends a word and the directive. -/
theorem Live.step_semicolon (h : q.Live) : q.step ';' = some q.close.endDirective := by
  obtain ⟨mode, quoted, variable_, comment, raw, args, directives⟩ := q
  obtain ⟨rfl, rfl, hd, hs⟩ := h
  cases mode with
  | space => rfl
  | needSpace => rfl
  | dquoted => exact absurd rfl hd
  | squoted => exact absurd rfl hs
  | word =>
    rw [Live.step_word ⟨rfl, rfl, hd, hs⟩ rfl, if_neg fun hc => absurd hc.1 (by decide)]
    rfl

/-- Where a text may end, its directives are those that a semicolon would leave. -/
theorem Live.finish (h : q.Live) : q.finish = some q.close.endDirective.directives := by
  obtain ⟨mode, quoted, variable_, comment, raw, args, directives⟩ := q
  obtain ⟨rfl, rfl, hd, hs⟩ := h
  cases mode with
  | space => rfl
  | needSpace => rfl
  | word => rfl
  | dquoted => exact absurd rfl hd
  | squoted => exact absurd rfl hs

theorem live_close (h : q.Live) : q.close.Live := by
  obtain ⟨mode, quoted, variable_, comment, raw, args, directives⟩ := q
  obtain ⟨rfl, rfl, hd, hs⟩ := h
  cases mode with
  | space => exact ⟨rfl, rfl, by simp [close]⟩
  | needSpace => exact ⟨rfl, rfl, by simp [close]⟩
  | word => exact ⟨rfl, rfl, by simp [close, endWord]⟩
  | dquoted => exact absurd rfl hd
  | squoted => exact absurd rfl hs

theorem close_mode (q : Lexer) : q.close.mode = .space := by
  unfold close
  split
  · rfl
  · rfl

theorem close_close (q : Lexer) : q.close.close = q.close := by
  have hmode := q.close_mode
  rw [close, hmode]
  generalize hq : q.close = q' at hmode ⊢
  obtain ⟨mode, quoted, variable_, comment, raw, args, directives⟩ := q'
  dsimp only at hmode
  subst hmode
  rfl

theorem ended_between (directives : List (List (List Char))) : (between directives).Ended directives :=
  ⟨rfl, rfl, rfl, rfl, rfl⟩

theorem live_between (directives : List (List (List Char))) : (between directives).Live :=
  ⟨rfl, rfl, ⟨Mode.noConfusion, Mode.noConfusion⟩⟩

/-- White space between words is passed over. -/
theorem Live.run_spaces (h : q.Live) (hm : q.mode = .space) (hcs : ∀ c ∈ cs, isSpace c = true) : q.run cs = some q := by
  induction cs with
  | nil => rfl
  | cons c cs ih =>
    have hclose : q.close = q := by
      obtain ⟨mode, quoted, variable_, comment, raw, args, directives⟩ := q
      cases hm
      rfl
    rw [run, h.step_space (hcs c List.mem_cons_self), hclose]
    exact ih fun d hd => hcs d (List.mem_cons_of_mem c hd)

/-- A comment goes on to the end of its line. -/
theorem run_comment (h : q.comment = true) (hcs : '\n' ∉ cs) : q.run cs = some q := by
  induction cs with
  | nil => rfl
  | cons c cs ih =>
    have hne : c ≠ '\n' := fun hc => hcs (hc ▸ List.mem_cons_self)
    have hstep : q.step c = some q := by
      obtain ⟨mode, quoted, variable_, comment, raw, args, directives⟩ := q
      cases h
      rw [step, if_pos rfl, decide_eq_true hne]
    rw [run, hstep]
    exact ih fun hc => hcs (List.mem_cons_of_mem c hc)

/-- Every semicolon of a text ends a directive. -/
def Lively (q : Lexer) (cs : List Char) : Prop := ∀ a b, cs = a ++ ';' :: b → ∀ q', q.run a = some q' → q'.Live

theorem Lively.head (h : q.Lively (';' :: cs)) : q.Live := h [] cs rfl q rfl

theorem Lively.tail (h : q.Lively (c :: cs)) (hs : q.step c = some q') : q'.Lively cs := by
  intro a b hab q'' hrun
  apply h (c :: a) b (by rw [hab]; rfl)
  rw [run, hs]
  exact hrun

theorem Lively.cons (hc : c = ';' → q.Live) (h : ∀ q', q.step c = some q' → q'.Lively cs) : q.Lively (c :: cs) := by
  intro a b hab q'' hrun
  cases a with
  | nil =>
    obtain ⟨rfl, -⟩ := List.cons_eq_cons.1 hab
    cases hrun
    exact hc rfl
  | cons d a =>
    obtain ⟨rfl, hrest⟩ := List.cons_eq_cons.1 hab
    rw [run] at hrun
    obtain ⟨q', hs, hrun⟩ := Option.bind_eq_some_iff.1 hrun
    exact h q' hs a b hrest q'' hrun

theorem Lively.of_append (h : q.Lively (cs ++ ds)) : q.Lively cs := by
  intro a b hab q' hrun
  exact h a (b ++ ds) (by rw [hab, List.append_assoc]; rfl) q' hrun

theorem lively_nil (q : Lexer) : q.Lively [] := by
  intro a b hab
  cases a <;> cases hab

/-- A text without semicolons behind one whose semicolons all end directives. -/
theorem Lively.append (h : q.Lively cs) (hrun : ∀ q', q.run cs = some q' → q'.Lively ds) : q.Lively (cs ++ ds) := by
  induction cs generalizing q with
  | nil => exact hrun q rfl
  | cons c cs ih =>
    rw [List.cons_append]
    apply Lively.cons
    · rintro rfl
      exact h.head
    · intro q' hs
      apply ih (h.tail hs)
      intro q'' hq''
      apply hrun
      rw [run, hs]
      exact hq''

end Lexer
end Nginx

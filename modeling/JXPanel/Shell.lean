import Mathlib

set_option autoImplicit true

/-! How a command line of a POSIX shell is read, up to the first substitution. Expansions that
come after the reading, such as that of file names, are left out. -/

namespace Shell

inductive Fault
  | unterminated
  | substitution
deriving DecidableEq

/-- An operator of several characters is read as so many operators. -/
inductive Token
  | word (text : List Char)
  | op (c : Char)
deriving DecidableEq

inductive Mode
  | plain
  | single
  | double
  | plainEscape
  | doubleEscape
  | comment
deriving DecidableEq

/-- What a character does where it stands. -/
inductive Class
  | blank
  | operator
  | quote
  | doubleQuote
  | backslash
  | substitution
  | comment
  | literal
deriving DecidableEq

def isBlank (c : Char) : Bool := decide (c ∈ [' ', '\t'])

def isOperator (c : Char) : Bool := decide (c ∈ ['\n', ';', '&', '|', '<', '>', '(', ')'])

/-- What must follow a dollar for it to stand for something else. -/
def startsExpansion : List Char → Bool
  | [] => false
  | c :: _ => c.isAlphanum || decide (c ∈ ['_', '@', '*', '#', '?', '-', '$', '!', '{', '('])

def isSubstitution (c : Char) (cs : List Char) : Bool :=
  decide (c = '\x60') || (decide (c = '$') && startsExpansion cs)

/-- Outside of quotes, with what follows and whether a word has begun. -/
def plainClass (inWord : Bool) (c : Char) (cs : List Char) : Class :=
  if isBlank c then .blank
  else if isOperator c then .operator
  else if c = '\'' then .quote
  else if c = '"' then .doubleQuote
  else if c = '\\' then .backslash
  else if isSubstitution c cs then .substitution
  else if c = '#' ∧ inWord = false then .comment
  else .literal

/-- Between double quotes. -/
def quotedClass (c : Char) (cs : List Char) : Class :=
  if c = '"' then .doubleQuote
  else if c = '\\' then .backslash
  else if isSubstitution c cs then .substitution
  else .literal

def flush : Option (List Char) → List Token
  | none => []
  | some w => [.word w]

def open_ (cur : Option (List Char)) : Option (List Char) := some (cur.getD [])

def push (cur : Option (List Char)) (c : Char) : Option (List Char) := some (cur.getD [] ++ [c])

def emit (ts : List Token) (r : Except Fault (List Token)) : Except Fault (List Token) :=
  r.map (ts ++ ·)

/-- The characters that a backslash takes their meaning from between double quotes. -/
def isEscapable (c : Char) : Bool := decide (c ∈ ['$', '\x60', '"', '\\'])

@[grind =]
def lex : List Char → Mode → Option (List Char) → Except Fault (List Token)
  | [], .plain, cur => .ok (flush cur)
  | [], .plainEscape, cur => .ok (flush (push cur '\\'))
  | [], .comment, _ => .ok []
  | [], _, _ => .error .unterminated
  | c :: cs, .plain, cur =>
    match plainClass cur.isSome c cs with
    | .blank => emit (flush cur) (lex cs .plain none)
    | .operator => emit (flush cur ++ [.op c]) (lex cs .plain none)
    | .quote => lex cs .single (open_ cur)
    | .doubleQuote => lex cs .double (open_ cur)
    | .backslash => lex cs .plainEscape cur
    | .substitution => .error .substitution
    | .comment => lex cs .comment none
    | .literal => lex cs .plain (push cur c)
  | c :: cs, .single, cur =>
    if c = '\'' then lex cs .plain cur else lex cs .single (push cur c)
  | c :: cs, .double, cur =>
    match quotedClass c cs with
    | .doubleQuote => lex cs .plain cur
    | .backslash => lex cs .doubleEscape cur
    | .substitution => .error .substitution
    | _ => lex cs .double (push cur c)
  | c :: cs, .plainEscape, cur =>
    if c = '\n' then lex cs .plain cur else lex cs .plain (push cur c)
  | c :: cs, .doubleEscape, cur =>
    if c = '\n' then lex cs .double cur
    else if isEscapable c then lex cs .double (push cur c)
    else lex cs .double (push (push cur '\\') c)
  | c :: cs, .comment, _ =>
    if c = '\n' then emit [.op c] (lex cs .plain none) else lex cs .comment none

/-- The tokens of a command line. -/
def tokens (cs : List Char) : Except Fault (List Token) := lex cs .plain none

/-- The text of single-quoted and double-quoted parts is kept, without the quotes. -/
example : tokens "echo \"a b\" 'c'\\ d | x".toList =
    .ok [.word "echo".toList, .word "a b".toList, .word "c d".toList, .op '|', .word "x".toList] := by
  decide

section Basics

theorem emit_ok {ts us : List Token} {r : Except Fault (List Token)} (h : emit ts r = .ok us) :
    ∃ vs, r = .ok vs ∧ us = ts ++ vs := by
  cases r with
  | error f => cases h
  | ok vs =>
    cases h
    exact ⟨vs, rfl, rfl⟩

theorem quotedClass_backslash {c : Char} {cs : List Char} (h : quotedClass c cs = .backslash) :
    c = '\\' := by
  unfold quotedClass at h
  split at h
  · cases h
  · split at h
    · assumption
    · split at h <;> cases h

theorem plainClass_backslash {b : Bool} {c : Char} {cs : List Char}
    (h : plainClass b c cs = .backslash) : c = '\\' := by
  unfold plainClass at h
  grind

/-- In a word that has begun no comment begins. -/
theorem plainClass_begun (c : Char) (cs : List Char) : plainClass true c cs ≠ .comment := by
  intro h
  unfold plainClass at h
  simp at h
  grind

theorem quotedClass_literal {c : Char} {cs : List Char} (h : isEscapable c = false) :
    quotedClass c cs = .literal := by
  have h : c ≠ '$' ∧ c ≠ '\x60' ∧ c ≠ '"' ∧ c ≠ '\\' := by simpa [isEscapable] using h
  simp [quotedClass, isSubstitution, h]

/-- The characters that have a meaning somewhere. -/
def specials : List Char :=
  [' ', '\t', '\n', ';', '&', '|', '<', '>', '(', ')', '\'', '"', '\\', '\x60', '$', '#']

theorem literal_of_not_special {c : Char} (h : c ∉ specials) (b : Bool) (cs : List Char) :
    plainClass b c cs = .literal ∧ quotedClass c cs = .literal := by
  simp only [specials, List.mem_cons, not_or] at h
  obtain ⟨h1, h2, h3, h4, h5, h6, h7, h8, h9, h10, h11, h12, h13, h14, h15, h16, -⟩ := h
  constructor
  · simp only [plainClass, isBlank, isOperator, isSubstitution, List.mem_cons, List.not_mem_nil,
      h1, h2, h3, h4, h5, h6, h7, h8, h9, h10, h11, h12, h13, h14, h15, h16, or_self,
      decide_false, Bool.false_and, Bool.or_self, false_and, if_false, Bool.false_eq_true]
  · simp only [quotedClass, isSubstitution, h12, h13, h14, h15, decide_false, Bool.false_and,
      Bool.or_self, if_false, Bool.false_eq_true]

theorem lex_single_unclosed {cs : List Char} (h : '\'' ∉ cs) (cur : Option (List Char)) :
    lex cs .single cur = .error .unterminated := by
  induction cs generalizing cur with
  | nil => rfl
  | cons c cs ih =>
    obtain ⟨hc, hcs⟩ := List.ne_and_not_mem_of_not_mem_cons h
    rw [lex, if_neg (Ne.symm hc)]
    exact ih hcs _

/-- Double quotes that are never closed make no command, whatever they hold. -/
theorem lex_double_unclosed {cs : List Char} (h : '"' ∉ cs) {m : Mode}
    (hm : m = .double ∨ m = .doubleEscape) (cur : Option (List Char)) :
    ∃ f, lex cs m cur = .error f := by
  induction cs generalizing m cur with
  | nil =>
    rcases hm with rfl | rfl
    · exact ⟨_, rfl⟩
    · exact ⟨_, rfl⟩
  | cons c cs ih =>
    obtain ⟨hc, hcs⟩ := List.ne_and_not_mem_of_not_mem_cons h
    rcases hm with rfl | rfl
    · rw [lex]
      cases hk : quotedClass c cs with
      | doubleQuote =>
        unfold quotedClass at hk
        rw [if_neg (Ne.symm hc)] at hk
        split at hk
        · cases hk
        · split at hk <;> cases hk
      | backslash => exact ih hcs (.inr rfl) cur
      | substitution => exact ⟨_, rfl⟩
      | _ => exact ih hcs (.inl rfl) _
    · rw [lex]
      split
      · exact ih hcs (.inl rfl) cur
      · split
        · exact ih hcs (.inl rfl) _
        · exact ih hcs (.inl rfl) _

/-- What ends a word that it follows. -/
def Stops (cs : List Char) : Prop := ∀ c, cs.head? = some c → isBlank c ∨ isOperator c

theorem lex_stops {cs : List Char} (hs : Stops cs) {u t : List Char} {ts : List Token}
    (h : lex cs .plain (some u) = .ok (.word t :: ts)) : t = u := by
  cases cs with
  | nil =>
    cases h
    rfl
  | cons c cs =>
    rw [lex] at h
    rcases hs c rfl with hc | hc
    · have hk : plainClass true c cs = .blank := if_pos hc
      rw [Option.isSome_some, hk] at h
      obtain ⟨vs, -, hv⟩ := emit_ok h
      cases hv
      rfl
    · have hk : plainClass true c cs = .blank ∨ plainClass true c cs = .operator := by
        unfold plainClass
        cases isBlank c with
        | true => exact .inl rfl
        | false => exact .inr (if_pos hc)
      rw [Option.isSome_some] at h
      rcases hk with hk | hk
      · rw [hk] at h
        obtain ⟨vs, -, hv⟩ := emit_ok h
        cases hv
        rfl
      · rw [hk] at h
        obtain ⟨vs, -, hv⟩ := emit_ok h
        cases hv
        rfl

end Basics

section Weight
variable (ω : Char → Nat)

def weight (cs : List Char) : Nat := (cs.map ω).sum

theorem weight_append (l r : List Char) : weight ω (l ++ r) = weight ω l + weight ω r := by
  rw [weight, List.map_append, List.sum_append]
  rfl

theorem weight_cons (c : Char) (cs : List Char) : weight ω (c :: cs) = ω c + weight ω cs := rfl

theorem weight_push (u : List Char) (c : Char) : weight ω (u ++ [c]) = weight ω u + ω c := by
  rw [weight_append]
  rfl

/-- A backslash that has been read and not yet counted. -/
def pending : Mode → Nat
  | .plainEscape => ω '\\'
  | .doubleEscape => ω '\\'
  | _ => 0

/-- What a character does to a word that has begun: it ends it, or the word goes on, no heavier
for it than the character, unless the character is a quote or a backslash. -/
theorem lex_word_step {m : Mode} (hm : m ≠ .comment) {c : Char} {cs u t : List Char}
    {ts : List Token} (h : lex (c :: cs) m (some u) = .ok (.word t :: ts)) :
    t = u ∨ ∃ m' u', m' ≠ .comment ∧ lex cs m' (some u') = .ok (.word t :: ts) ∧
      weight ω u' + pending ω m' ≤ weight ω u + ω c + pending ω m := by
  cases m with
  | comment => exact (hm rfl).elim
  | single =>
    rw [lex] at h
    split at h
    · exact .inr ⟨.plain, u, by decide, h, by simp [pending]⟩
    · exact .inr ⟨.single, u ++ [c], by decide, h, by simp [pending, weight_push]⟩
  | plainEscape =>
    rw [lex] at h
    split at h
    · exact .inr ⟨.plain, u, by decide, h, by simp [pending]; omega⟩
    · exact .inr ⟨.plain, u ++ [c], by decide, h, by simp [pending, weight_push]⟩
  | doubleEscape =>
    rw [lex] at h
    split at h
    · exact .inr ⟨.double, u, by decide, h, by simp [pending]; omega⟩
    · split at h
      · exact .inr ⟨.double, u ++ [c], by decide, h, by simp [pending, weight_push]⟩
      · refine .inr ⟨.double, u ++ ['\\'] ++ [c], by decide, h, ?_⟩
        simp only [pending, weight_push]
        omega
  | double =>
    rw [lex] at h
    cases hk : quotedClass c cs with
    | doubleQuote =>
      rw [hk] at h
      exact .inr ⟨.plain, u, by decide, h, by simp [pending]⟩
    | backslash =>
      have hc := quotedClass_backslash hk
      rw [hk] at h
      exact .inr ⟨.doubleEscape, u, by decide, h, by simp [pending, hc]⟩
    | substitution =>
      rw [hk] at h
      cases h
    | _ =>
      rw [hk] at h
      exact .inr ⟨.double, u ++ [c], by decide, h, by simp [pending, weight_push]⟩
  | plain =>
    rw [lex] at h
    cases hk : plainClass (some u).isSome c cs with
    | blank =>
      rw [hk] at h
      obtain ⟨vs, -, hv⟩ := emit_ok h
      cases hv
      exact .inl rfl
    | operator =>
      rw [hk] at h
      obtain ⟨vs, -, hv⟩ := emit_ok h
      cases hv
      exact .inl rfl
    | quote =>
      rw [hk] at h
      exact .inr ⟨.single, u, by decide, h, by simp [pending]⟩
    | doubleQuote =>
      rw [hk] at h
      exact .inr ⟨.double, u, by decide, h, by simp [pending]⟩
    | backslash =>
      have hc := plainClass_backslash hk
      rw [hk] at h
      exact .inr ⟨.plainEscape, u, by decide, h, by simp [pending, hc]⟩
    | substitution =>
      rw [hk] at h
      cases h
    | comment => exact (plainClass_begun c cs hk).elim
    | literal =>
      rw [hk] at h
      exact .inr ⟨.plain, u ++ [c], by decide, h, by simp [pending, weight_push]⟩

variable {q : Char} {rest : List Char}

/-- A quote that no other one follows opens something that is never closed, or closes what is
open, or has lost its meaning to a backslash. -/
theorem lex_last_quote (hq : q = '\'' ∨ q = '"') (hsingle : '\'' ∉ rest) (hdouble : '"' ∉ rest)
    {m : Mode} (hm : m ≠ .comment) (cur : Option (List Char)) :
    (∃ f, lex (q :: rest) m cur = .error f) ∨
    ((m = .single ∨ m = .double) ∧ lex (q :: rest) m cur = lex rest .plain cur) ∨
    (m = .plainEscape ∧ lex (q :: rest) m cur = lex rest .plain (push cur q)) := by
  have hs := fun cur => lex_single_unclosed hsingle cur
  have hd := fun cur => lex_double_unclosed hdouble (.inl rfl) cur
  cases m with
  | comment => exact (hm rfl).elim
  | plain =>
    rcases hq with rfl | rfl
    · exact .inl ⟨_, hs _⟩
    · obtain ⟨f, hf⟩ := hd (open_ cur)
      exact .inl ⟨f, hf⟩
  | single =>
    rcases hq with rfl | rfl
    · exact .inr (.inl ⟨.inl rfl, rfl⟩)
    · exact .inl ⟨_, hs _⟩
  | double =>
    rcases hq with rfl | rfl
    · obtain ⟨f, hf⟩ := hd (push cur '\'')
      exact .inl ⟨f, hf⟩
    · exact .inr (.inl ⟨.inr rfl, rfl⟩)
  | plainEscape =>
    rcases hq with rfl | rfl
    · exact .inr (.inr ⟨rfl, rfl⟩)
    · exact .inr (.inr ⟨rfl, rfl⟩)
  | doubleEscape =>
    rcases hq with rfl | rfl
    · obtain ⟨f, hf⟩ := hd (push (push cur '\\') '\'')
      exact .inl ⟨f, hf⟩
    · obtain ⟨f, hf⟩ := hd (push cur '"')
      exact .inl ⟨f, hf⟩

/-- A word that goes on with a text and a last quote is no heavier than the text: either the
quote is the end of what it opened, or what it ends a backslash has been lost. -/
theorem weight_first_word (hq : q = '\'' ∨ q = '"') (hω : ω q ≤ ω '\\') (hs : Stops rest)
    (hsingle : '\'' ∉ rest) (hdouble : '"' ∉ rest) {m : Mode} (hm : m ≠ .comment)
    {text u t : List Char} {ts : List Token}
    (h : lex (text ++ q :: rest) m (some u) = .ok (.word t :: ts)) :
    weight ω t ≤ weight ω u + weight ω text + pending ω m := by
  induction text generalizing m u with
  | nil =>
    rw [List.nil_append] at h
    obtain ⟨f, hopen⟩ | ⟨hp, hstop⟩ | ⟨hp, hstop⟩ :=
      lex_last_quote hq hsingle hdouble hm (some u)
    · rw [hopen] at h
      cases h
    · rw [hstop] at h
      rw [lex_stops hs h]
      omega
    · subst hp
      rw [hstop] at h
      have hpush : push (some u) q = some (u ++ [q]) := rfl
      rw [hpush] at h
      rw [lex_stops hs h, weight_push]
      exact Nat.add_le_add_left hω _
  | cons c text ih =>
    rcases lex_word_step ω hm h with rfl | ⟨m', u', hm', h', hle⟩
    · omega
    · have hrec := ih hm' h'
      rw [weight_cons]
      omega

end Weight

section Quotes
variable {rest : List Char}

/-- What follows a backslash that stands for itself between double quotes. -/
def keepsBackslash : List Char → Bool
  | [] => false
  | c :: _ => !isEscapable c && decide (c ≠ '\n')

/-- A text that double quotes keep as it is. -/
def dquotable : List Char → Bool
  | [] => true
  | c :: cs =>
    match quotedClass c cs with
    | .doubleQuote => false
    | .substitution => false
    | .backslash => keepsBackslash cs && dquotable cs
    | _ => dquotable cs

theorem startsExpansion_append (cs : List Char) {c : Char} (h : startsExpansion [c] = false)
    (rest : List Char) : startsExpansion (cs ++ c :: rest) = startsExpansion cs := by
  cases cs with
  | nil => exact h
  | cons d ds => rfl

theorem quotedClass_append (c : Char) (cs : List Char) {d : Char} (h : startsExpansion [d] = false)
    (rest : List Char) : quotedClass c (cs ++ d :: rest) = quotedClass c cs := by
  unfold quotedClass isSubstitution
  rw [startsExpansion_append cs h]

theorem lex_double_kept {text : List Char} (h : dquotable text = true) (u : List Char) :
    lex (text ++ '"' :: rest) .double (some u) = lex rest .plain (some (u ++ text)) := by
  induction text generalizing u with
  | nil =>
    rw [List.append_nil]
    rfl
  | cons c text ih =>
    have happ : u ++ c :: text = u ++ [c] ++ text := by simp
    rw [dquotable] at h
    rw [List.cons_append, lex, quotedClass_append c text (by decide) rest]
    cases hk : quotedClass c text with
    | doubleQuote =>
      rw [hk] at h
      cases h
    | substitution =>
      rw [hk] at h
      cases h
    | backslash =>
      rw [hk] at h
      obtain ⟨hkeep, htext⟩ := Bool.and_eq_true_iff.1 h
      cases text with
      | nil => cases hkeep
      | cons d text =>
        obtain ⟨hesc, hnl⟩ := Bool.and_eq_true_iff.1 hkeep
        have he : isEscapable d = false := by simpa using hesc
        have hrec := ih htext (u ++ [c])
        rw [← happ, List.cons_append, lex, quotedClass_literal he, quotedClass_backslash hk] at hrec
        rw [List.cons_append]
        dsimp only
        rw [lex, if_neg (of_decide_eq_true hnl), he, if_neg Bool.false_ne_true,
          quotedClass_backslash hk]
        exact hrec
    | _ =>
      rw [hk] at h
      rw [happ]
      exact ih h (u ++ [c])

/-- What has a meaning between double quotes does not come back out of them, if nothing else is
quoted behind. -/
theorem dquotable_of_lex_double (hs : Stops rest) (hsingle : '\'' ∉ rest) (hdouble : '"' ∉ rest)
    {text u : List Char} {ts : List Token}
    (h : lex (text ++ '"' :: rest) .double (some u) = .ok (.word (u ++ text) :: ts)) :
    dquotable text = true := by
  induction text generalizing u with
  | nil => rfl
  | cons c text ih =>
    have happ : u ++ c :: text = u ++ [c] ++ text := by simp
    have hlen : ∀ l : List Char, weight (fun _ => 1) l = l.length := by simp [weight]
    -- what has a meaning loses at least one character, and the word is too short then
    have hshort : ∀ m v cs, m ≠ Mode.comment →
        weight (fun _ => 1) v + weight (fun _ => 1) cs + pending (fun _ => 1) m <
          u.length + text.length + 1 →
        ¬ lex (cs ++ '"' :: rest) m (some v) = .ok (.word (u ++ c :: text) :: ts) := by
      intro m v cs hm hlt h
      have hle := weight_first_word (fun _ => 1) (.inr rfl) (Nat.le_refl 1) hs hsingle hdouble hm h
      rw [hlen (u ++ c :: text), List.length_append, List.length_cons] at hle
      omega
    rw [List.cons_append, lex, quotedClass_append c text (by decide) rest] at h
    rw [dquotable]
    cases hk : quotedClass c text with
    | doubleQuote =>
      rw [hk] at h
      apply (hshort .plain u text (by decide) _ h).elim
      simp only [hlen, pending]
      omega
    | substitution =>
      rw [hk] at h
      cases h
    | backslash =>
      rw [hk] at h
      dsimp only at h
      cases text with
      | nil =>
        obtain ⟨f, hf⟩ := lex_double_unclosed hdouble (.inl rfl) (push (some u) '"')
        have h' : lex rest .double (push (some u) '"') = _ := h
        rw [hf] at h'
        cases h'
      | cons d text =>
        rw [List.cons_append, lex] at h
        by_cases hnl : d = '\n'
        · rw [if_pos hnl] at h
          apply (hshort .double u text (by decide) _ h).elim
          simp only [hlen, pending, List.length_cons]
          omega
        · rw [if_neg hnl] at h
          cases he : isEscapable d with
          | true =>
            rw [if_pos he] at h
            apply (hshort .double (u ++ [d]) text (by decide) _ h).elim
            simp only [hlen, pending, List.length_append, List.length_cons, List.length_nil]
            omega
          | false =>
            have hkeep : keepsBackslash (d :: text) = true := by simp [keepsBackslash, he, hnl]
            have hrec := @ih (u ++ [c])
            rw [← happ, List.cons_append, lex, quotedClass_literal he, quotedClass_backslash hk] at hrec
            rw [he, if_neg Bool.false_ne_true, quotedClass_backslash hk] at h
            dsimp only
            rw [hkeep, Bool.true_and]
            exact hrec h
    | _ =>
      rw [hk] at h
      rw [happ] at h
      exact ih h

/-- A double-quoted text that nothing else is quoted behind is read as itself just when it is
free of what has a meaning between the quotes. -/
theorem lex_double_iff (hs : Stops rest) (hsingle : '\'' ∉ rest) (hdouble : '"' ∉ rest)
    (text u : List Char) (ts : List Token) :
    lex (text ++ '"' :: rest) .double (some u) = .ok (.word (u ++ text) :: ts) ↔
      dquotable text = true ∧
        lex rest .plain (some (u ++ text)) = .ok (.word (u ++ text) :: ts) := by
  constructor
  · intro h
    have hd := dquotable_of_lex_double hs hsingle hdouble h
    rw [lex_double_kept hd] at h
    exact ⟨hd, h⟩
  · rintro ⟨hd, h⟩
    rw [lex_double_kept hd]
    exact h

theorem lex_single_kept {text : List Char} (h : '\'' ∉ text) (u : List Char) :
    lex (text ++ '\'' :: rest) .single (some u) = lex rest .plain (some (u ++ text)) := by
  induction text generalizing u with
  | nil =>
    rw [List.append_nil]
    rfl
  | cons c text ih =>
    obtain ⟨hc, htext⟩ := List.ne_and_not_mem_of_not_mem_cons h
    rw [List.cons_append, lex, if_neg (Ne.symm hc)]
    have happ : u ++ c :: text = u ++ [c] ++ text := by simp
    rw [happ]
    exact ih htext (u ++ [c])

/-- A single-quoted text with single quotes in it is read as a lighter one, if at all. -/
theorem lex_single_lighter (ω : Char → Nat) (hpos : 0 < ω '\'') (hω : ω '\'' ≤ ω '\\')
    (hs : Stops rest) (hsingle : '\'' ∉ rest) (hdouble : '"' ∉ rest) {text u t : List Char}
    {ts : List Token} (hmem : '\'' ∈ text)
    (h : lex (text ++ '\'' :: rest) .single (some u) = .ok (.word t :: ts)) :
    weight ω t < weight ω u + weight ω text := by
  obtain ⟨l, r, rfl, hl⟩ := List.eq_append_cons_of_mem hmem
  rw [List.append_assoc, List.cons_append, lex_single_kept hl] at h
  have hle := weight_first_word ω (.inl rfl) hω hs hsingle hdouble (by decide) h
  rw [weight_append] at hle
  simp only [pending] at hle
  rw [weight_append, weight_cons]
  omega

theorem dquotable_append {pre : List Char} (h : ∀ c ∈ pre, c ∉ specials) (text : List Char) :
    dquotable (pre ++ text) = dquotable text := by
  induction pre with
  | nil => rfl
  | cons c pre ih =>
    rw [List.cons_append, dquotable, (literal_of_not_special (h c List.mem_cons_self) true _).2]
    exact ih fun d hd => h d (List.mem_cons_of_mem _ hd)

end Quotes

section Words

/-- A text that is read as a part of a word wherever a word may go on. -/
def bareText : Bool → List Char → Bool
  | inWord, [] => inWord
  | inWord, c :: cs => decide (plainClass inWord c cs = .literal) && bareText true cs

/-- The same of a text at the end, where a backslash stands for itself. -/
def lastText : Bool → List Char → Bool
  | inWord, [] => inWord
  | inWord, c :: cs =>
    match plainClass inWord c cs with
    | .literal => lastText true cs
    | .backslash => cs.isEmpty
    | _ => false

/-- Words with one blank between each other and nothing that has a meaning. -/
def tidy : Bool → List Char → Bool
  | inWord, [] => inWord
  | inWord, c :: cs =>
    match plainClass inWord c cs with
    | .blank => inWord && tidy false cs
    | .literal => tidy true cs
    | .backslash => cs.isEmpty
    | _ => false

theorem bareText_of_not_special {text : List Char} (h : ∀ c ∈ text, c ∉ specials) :
    bareText true text = true := by
  induction text with
  | nil => rfl
  | cons c text ih =>
    rw [bareText, (literal_of_not_special (h c List.mem_cons_self) true _).1]
    exact ih fun d hd => h d (List.mem_cons_of_mem _ hd)

/-- A word of characters without a meaning. -/
theorem bareText_word {text : List Char} (hne : text ≠ []) (h : ∀ c ∈ text, c ∉ specials) :
    bareText false text = true := by
  cases text with
  | nil => exact (hne rfl).elim
  | cons c text =>
    rw [bareText, (literal_of_not_special (h c List.mem_cons_self) false _).1]
    exact bareText_of_not_special fun d hd => h d (List.mem_cons_of_mem _ hd)

theorem plainClass_append (b : Bool) (c : Char) (cs : List Char) {d : Char}
    (h : startsExpansion [d] = false) (rest : List Char) :
    plainClass b c (cs ++ d :: rest) = plainClass b c cs := by
  unfold plainClass isSubstitution
  rw [startsExpansion_append cs h]

theorem lex_bare {text : List Char} {d : Char} (hd : startsExpansion [d] = false)
    (rest : List Char) (cur : Option (List Char)) (h : bareText cur.isSome text = true) :
    lex (text ++ d :: rest) .plain cur = lex (d :: rest) .plain (some (cur.getD [] ++ text)) := by
  induction text generalizing cur with
  | nil =>
    cases cur with
    | none => cases h
    | some u =>
      rw [List.append_nil]
      rfl
  | cons c text ih =>
    rw [bareText, Bool.and_eq_true, decide_eq_true_iff] at h
    obtain ⟨hk, htext⟩ := h
    rw [List.cons_append, lex, plainClass_append _ c text hd, hk]
    have happ : cur.getD [] ++ c :: text = cur.getD [] ++ [c] ++ text := by simp
    rw [happ]
    exact ih (push cur c) htext

/-- A bare word and a blank behind it. -/
theorem lex_bare_blank {w : List Char} (h : bareText false w = true) (rest : List Char) :
    lex (w ++ ' ' :: rest) .plain none = emit [.word w] (lex rest .plain none) :=
  lex_bare (by decide) rest none h

/-- A bare word and an operator behind it. -/
theorem lex_bare_operator {w : List Char} {c : Char} (h : bareText false w = true)
    (hc : startsExpansion [c] = false) (hk : ∀ rest, plainClass true c rest = .operator)
    (rest : List Char) :
    lex (w ++ c :: rest) .plain none = emit [.word w, .op c] (lex rest .plain none) := by
  rw [lex_bare hc rest none h, lex, Option.isSome_some, hk]
  rfl

/-- Words with a blank behind each. -/
def blanked (ws : List (List Char)) : List Char := ws.flatMap (· ++ [' '])

theorem lex_blanked {ws : List (List Char)} (h : ∀ w ∈ ws, bareText false w = true)
    (rest : List Char) :
    lex (blanked ws ++ rest) .plain none = emit (ws.map .word) (lex rest .plain none) := by
  induction ws with
  | nil =>
    cases hr : lex rest .plain none with
    | error f =>
      rw [blanked, List.flatMap_nil, List.nil_append, hr]
      rfl
    | ok ts =>
      rw [blanked, List.flatMap_nil, List.nil_append, hr]
      rfl
  | cons w ws ih =>
    have hsplit : blanked (w :: ws) ++ rest = w ++ ' ' :: (blanked ws ++ rest) := by
      simp [blanked]
    rw [hsplit, lex_bare_blank (h w List.mem_cons_self),
      ih fun v hv => h v (List.mem_cons_of_mem _ hv)]
    cases lex rest .plain none <;> rfl

theorem emit_eq_ok {ts us : List Token} {r : Except Fault (List Token)} :
    emit ts r = .ok (ts ++ us) ↔ r = .ok us := by
  constructor
  · intro h
    obtain ⟨vs, rfl, hv⟩ := emit_ok h
    rw [List.append_cancel_left hv]
  · rintro rfl
    rfl

theorem lex_last {text : List Char} (cur : Option (List Char))
    (h : lastText cur.isSome text = true) :
    lex text .plain cur = .ok [.word (cur.getD [] ++ text)] := by
  induction text generalizing cur with
  | nil =>
    cases cur with
    | none => cases h
    | some u =>
      rw [List.append_nil]
      rfl
  | cons c text ih =>
    rw [lastText] at h
    rw [lex]
    have happ : cur.getD [] ++ c :: text = cur.getD [] ++ [c] ++ text := by simp
    cases hk : plainClass cur.isSome c text with
    | literal =>
      rw [hk] at h
      rw [happ]
      exact ih (push cur c) h
    | backslash =>
      rw [hk] at h
      rw [List.isEmpty_iff.1 h, plainClass_backslash hk]
      rfl
    | _ =>
      rw [hk] at h
      cases h

def tokenSize : Token → Nat
  | .word w => w.length + 1
  | .op _ => 0

/-- The characters of the words, and one more for each. -/
def size (ts : List Token) : Nat := (ts.map tokenSize).sum

theorem size_append (l r : List Token) : size (l ++ r) = size l + size r := by
  rw [size, List.map_append, List.sum_append]
  rfl

/-- How large the tokens may be that a text is read as. -/
def cap (cs : List Char) : Mode → Option (List Char) → Nat
  | .plain, cur => (cur.getD []).length + cs.length + 1
  | .plainEscape, cur => (cur.getD []).length + cs.length + if cs = [] then 2 else 1
  | .doubleEscape, cur => (cur.getD []).length + cs.length + 1
  | .comment, _ => cs.length + 1
  | _, cur => (cur.getD []).length + cs.length

theorem size_flush (cur : Option (List Char)) : size (flush cur) ≤ (cur.getD []).length + 1 := by
  cases cur with
  | none => exact Nat.zero_le _
  | some u => exact Nat.le_refl _

theorem length_push (cur : Option (List Char)) (c : Char) :
    ((push cur c).getD []).length = (cur.getD []).length + 1 := by
  simp [push]

/-- Nothing that is read makes the words larger than the text, and whatever is not part of a
word and no blank between two makes them smaller. -/
theorem size_le_cap {cs : List Char} {m : Mode} {cur : Option (List Char)} {ts : List Token}
    (h : lex cs m cur = .ok ts) : size ts ≤ cap cs m cur := by
  induction cs generalizing m cur ts with
  | nil =>
    cases m with
    | plain =>
      cases h
      exact size_flush cur
    | plainEscape =>
      cases h
      simp only [flush, push, size, List.map_cons, List.map_nil, tokenSize, List.sum_cons,
        List.sum_nil, List.length_append, List.length_singleton, cap, if_true]
      omega
    | comment =>
      cases h
      exact Nat.zero_le _
    | single => cases h
    | double => cases h
    | doubleEscape => cases h
  | cons c cs ih =>
    have hplain : cap cs .plain none = cs.length + 1 := by simp [cap]
    cases m with
    | plain =>
      rw [lex] at h
      have hflush := size_flush cur
      cases hk : plainClass cur.isSome c cs with
      | blank =>
        rw [hk] at h
        obtain ⟨vs, hv, rfl⟩ := emit_ok h
        have hvs := ih hv
        rw [size_append]
        simp only [cap, List.length_cons] at hvs ⊢
        simp only [Option.getD_none, List.length_nil] at hvs
        omega
      | operator =>
        rw [hk] at h
        obtain ⟨vs, hv, rfl⟩ := emit_ok h
        have hvs := ih hv
        have hop : size [Token.op c] = 0 := rfl
        rw [size_append, size_append, hop]
        simp only [cap, List.length_cons] at hvs ⊢
        simp only [Option.getD_none, List.length_nil] at hvs
        omega
      | substitution =>
        rw [hk] at h
        cases h
      | comment =>
        rw [hk] at h
        have hvs := ih h
        simp only [cap, List.length_cons] at hvs ⊢
        omega
      | quote =>
        rw [hk] at h
        have hvs := ih h
        simp only [cap, List.length_cons, open_, Option.getD_some] at hvs ⊢
        omega
      | doubleQuote =>
        rw [hk] at h
        have hvs := ih h
        simp only [cap, List.length_cons, open_, Option.getD_some] at hvs ⊢
        omega
      | backslash =>
        rw [hk] at h
        have hvs := ih h
        simp only [cap, List.length_cons] at hvs ⊢
        split at hvs <;> omega
      | literal =>
        rw [hk] at h
        have hvs := ih h
        simp only [cap, List.length_cons, length_push] at hvs ⊢
        omega
    | single =>
      rw [lex] at h
      split at h
      · have hvs := ih h
        simp only [cap, List.length_cons] at hvs ⊢
        omega
      · have hvs := ih h
        simp only [cap, List.length_cons, length_push] at hvs ⊢
        omega
    | double =>
      rw [lex] at h
      cases hk : quotedClass c cs with
      | doubleQuote =>
        rw [hk] at h
        have hvs := ih h
        simp only [cap, List.length_cons] at hvs ⊢
        omega
      | backslash =>
        rw [hk] at h
        have hvs := ih h
        simp only [cap, List.length_cons] at hvs ⊢
        omega
      | substitution =>
        rw [hk] at h
        cases h
      | _ =>
        rw [hk] at h
        have hvs := ih h
        simp only [cap, List.length_cons, length_push] at hvs ⊢
        omega
    | plainEscape =>
      rw [lex] at h
      split at h
      · have hvs := ih h
        simp only [cap, List.length_cons, List.cons_ne_nil, if_false] at hvs ⊢
        omega
      · have hvs := ih h
        simp only [cap, List.length_cons, length_push, List.cons_ne_nil, if_false] at hvs ⊢
        omega
    | doubleEscape =>
      rw [lex] at h
      split at h
      · have hvs := ih h
        simp only [cap, List.length_cons] at hvs ⊢
        omega
      · split at h
        · have hvs := ih h
          simp only [cap, List.length_cons, length_push] at hvs ⊢
          omega
        · have hvs := ih h
          simp only [cap, List.length_cons, length_push] at hvs ⊢
          omega
    | comment =>
      rw [lex] at h
      split at h
      · obtain ⟨vs, hv, rfl⟩ := emit_ok h
        have hvs := ih hv
        have hop : size [Token.op c] = 0 := rfl
        rw [size_append, hop]
        simp only [cap, List.length_cons, Option.getD_none, List.length_nil] at hvs ⊢
        omega
      · have hvs := ih h
        simp only [cap, List.length_cons] at hvs ⊢
        omega

/-- A text that is read as words that are as large as it is has only them and single blanks. -/
theorem tidy_of_size {cs : List Char} {cur : Option (List Char)} {ws : List (List Char)}
    (h : lex cs .plain cur = .ok (ws.map .word)) (hsize : size (ws.map .word) = cap cs .plain cur) :
    tidy cur.isSome cs = true := by
  induction cs generalizing cur ws with
  | nil =>
    cases cur with
    | none =>
      have hw : ws.map Token.word = [] := (Except.ok.inj h).symm
      rw [hw] at hsize
      cases hsize
    | some u => rfl
  | cons c cs ih =>
    rw [tidy]
    rw [lex] at h
    cases hk : plainClass cur.isSome c cs with
    | blank =>
      rw [hk] at h
      obtain ⟨vs, hv, hws⟩ := emit_ok h
      have hvs := size_le_cap hv
      cases cur with
      | none =>
        have hws : ws.map Token.word = vs := hws
        rw [hws] at hsize
        simp only [cap, List.length_cons] at hvs hsize
        omega
      | some u =>
        cases ws with
        | nil => cases hws
        | cons w ws =>
          obtain ⟨hw, hvw⟩ := List.cons.inj hws
          obtain rfl : w = u := Token.word.inj hw
          apply Bool.and_eq_true_iff.2
          have hread : lex cs .plain none = .ok (ws.map .word) := by
            rw [hvw]
            exact hv
          refine ⟨rfl, ih hread ?_⟩
          have hcons : size ((w :: ws).map Token.word) = w.length + 1 + size (ws.map .word) := rfl
          rw [hcons] at hsize
          simp only [cap, List.length_cons, Option.getD_some, Option.getD_none, List.length_nil] at hsize ⊢
          omega
    | operator =>
      rw [hk] at h
      obtain ⟨vs, -, hws⟩ := emit_ok h
      have hmem : Token.op c ∈ ws.map Token.word := by
        rw [hws]
        simp
      obtain ⟨w, -, hw⟩ := List.mem_map.1 hmem
      cases hw
    | quote =>
      rw [hk] at h
      have hvs := size_le_cap h
      simp only [cap, List.length_cons, open_, Option.getD_some] at hvs hsize
      omega
    | doubleQuote =>
      rw [hk] at h
      have hvs := size_le_cap h
      simp only [cap, List.length_cons, open_, Option.getD_some] at hvs hsize
      omega
    | backslash =>
      rw [hk] at h
      have hvs := size_le_cap h
      simp only [cap, List.length_cons] at hvs hsize
      dsimp only
      split at hvs
      · rename_i hnil
        rw [hnil]
        rfl
      · omega
    | substitution =>
      rw [hk] at h
      cases h
    | comment =>
      rw [hk] at h
      have hvs := size_le_cap h
      simp only [cap, List.length_cons] at hvs hsize
      omega
    | literal =>
      rw [hk] at h
      apply ih h
      simp only [cap, List.length_cons, length_push] at hsize ⊢
      omega

/-- The first of tidy words has nothing in it but itself if it is read as itself. -/
theorem tidy_first {text rest : List Char} {cur : Option (List Char)} {ts : List Token}
    (ht : tidy cur.isSome (text ++ ' ' :: rest) = true)
    (h : lex (text ++ ' ' :: rest) .plain cur = .ok (.word (cur.getD [] ++ text) :: ts)) :
    bareText cur.isSome text = true ∧ tidy false rest = true ∧ lex rest .plain none = .ok ts := by
  induction text generalizing cur with
  | nil =>
    rw [List.nil_append, tidy] at ht
    have hk : plainClass cur.isSome ' ' rest = .blank := rfl
    rw [hk] at ht
    obtain ⟨hcur, hrest⟩ := Bool.and_eq_true_iff.1 ht
    refine ⟨hcur, hrest, ?_⟩
    rw [List.nil_append, lex, hk] at h
    obtain ⟨vs, hv, hts⟩ := emit_ok h
    cases cur with
    | none => cases hcur
    | some u =>
      obtain ⟨-, rfl⟩ := List.cons.inj hts
      exact hv
  | cons c text ih =>
    rw [List.cons_append, tidy, plainClass_append _ c text (by decide)] at ht
    rw [List.cons_append, lex, plainClass_append _ c text (by decide)] at h
    rw [bareText]
    have happ : cur.getD [] ++ c :: text = cur.getD [] ++ [c] ++ text := by simp
    cases hk : plainClass cur.isSome c text with
    | literal =>
      rw [hk] at ht h
      rw [happ] at h
      obtain ⟨hbare, hrest⟩ := ih (show tidy (push cur c).isSome _ = true from ht) h
      exact ⟨Bool.and_eq_true_iff.2 ⟨rfl, hbare⟩, hrest⟩
    | blank =>
      rw [hk] at ht h
      obtain ⟨hcur, -⟩ := Bool.and_eq_true_iff.1 ht
      obtain ⟨vs, -, hts⟩ := emit_ok h
      cases cur with
      | none => cases hcur
      | some u =>
        have hw := Token.word.inj (List.cons.inj hts).1
        have hlen := congrArg List.length hw
        simp at hlen
    | backslash =>
      rw [hk] at ht
      have hnil := List.isEmpty_iff.1 ht
      cases text <;> cases hnil
    | _ =>
      rw [hk] at ht
      cases ht

theorem tidy_last {text : List Char} {cur : Option (List Char)}
    (ht : tidy cur.isSome text = true)
    (h : lex text .plain cur = .ok [.word (cur.getD [] ++ text)]) :
    lastText cur.isSome text = true := by
  induction text generalizing cur with
  | nil => exact ht
  | cons c text ih =>
    rw [tidy] at ht
    rw [lex] at h
    rw [lastText]
    have happ : cur.getD [] ++ c :: text = cur.getD [] ++ [c] ++ text := by simp
    cases hk : plainClass cur.isSome c text with
    | literal =>
      rw [hk] at ht h
      rw [happ] at h
      exact ih (show tidy (push cur c).isSome _ = true from ht) h
    | backslash =>
      rw [hk] at ht
      exact ht
    | blank =>
      rw [hk] at ht h
      obtain ⟨hcur, -⟩ := Bool.and_eq_true_iff.1 ht
      obtain ⟨vs, -, hts⟩ := emit_ok h
      cases cur with
      | none => cases hcur
      | some u =>
        have hw := Token.word.inj (List.cons.inj hts).1
        have hlen := congrArg List.length hw
        simp at hlen
    | _ =>
      rw [hk] at ht
      cases ht

/-- Texts with a blank between each other. -/
def line : List (List Char) → List Char
  | [] => []
  | [w] => w
  | w :: ws => w ++ ' ' :: line ws

theorem line_cons (w w' : List Char) (ws : List (List Char)) :
    line (w :: w' :: ws) = w ++ ' ' :: line (w' :: ws) := rfl

/-- Texts that are words without any quoting. -/
def bareLine : List (List Char) → Bool
  | [] => true
  | [w] => lastText false w
  | w :: ws => bareText false w && bareLine ws

theorem size_line (w : List Char) (ws : List (List Char)) :
    size ((w :: ws).map .word) = (line (w :: ws)).length + 1 := by
  induction ws generalizing w with
  | nil => rfl
  | cons w' ws ih =>
    have hcons : size ((w :: w' :: ws).map .word) =
        w.length + 1 + size ((w' :: ws).map .word) := rfl
    rw [hcons, ih w', line_cons, List.length_append, List.length_cons]
    omega

theorem bareLine_of_tidy (w : List Char) (ws : List (List Char))
    (ht : tidy false (line (w :: ws)) = true)
    (h : tokens (line (w :: ws)) = .ok ((w :: ws).map .word)) : bareLine (w :: ws) = true := by
  induction ws generalizing w with
  | nil => exact tidy_last (show tidy Option.none.isSome _ = true from ht) h
  | cons w' ws ih =>
    rw [line_cons] at ht h
    obtain ⟨hw, hrest, hlex⟩ := tidy_first (show tidy Option.none.isSome _ = true from ht) h
    exact Bool.and_eq_true_iff.2 ⟨hw, ih w' hrest hlex⟩

/-- Texts joined with blanks are read as themselves just when none has anything in it that has
a meaning. -/
theorem tokens_line_iff (w : List Char) (ws : List (List Char)) :
    tokens (line (w :: ws)) = .ok ((w :: ws).map .word) ↔ bareLine (w :: ws) = true := by
  constructor
  · intro h
    apply bareLine_of_tidy w ws _ h
    apply tidy_of_size h
    rw [size_line]
    simp [cap]
  · intro h
    induction ws generalizing w with
    | nil => exact lex_last none h
    | cons w' ws ih =>
      obtain ⟨hw, hws⟩ := Bool.and_eq_true_iff.1 h
      have hrec := ih w' hws
      rw [tokens] at hrec
      rw [tokens, line_cons, lex_bare_blank hw, hrec]
      rfl

end Words

section Quiet

/-- A text of words alone: every quote is closed, no substitution is made, and nothing outside
of quotes is an operator. -/
def quiet : List Char → Mode → Bool → Bool
  | [], .plain, _ => true
  | [], .plainEscape, _ => true
  | [], .comment, _ => true
  | [], _, _ => false
  | c :: cs, .plain, inWord =>
    match plainClass inWord c cs with
    | .blank => quiet cs .plain false
    | .operator => false
    | .quote => quiet cs .single true
    | .doubleQuote => quiet cs .double true
    | .backslash => quiet cs .plainEscape inWord
    | .substitution => false
    | .comment => quiet cs .comment false
    | .literal => quiet cs .plain true
  | c :: cs, .single, inWord =>
    if c = '\'' then quiet cs .plain inWord else quiet cs .single true
  | c :: cs, .double, inWord =>
    match quotedClass c cs with
    | .doubleQuote => quiet cs .plain inWord
    | .backslash => quiet cs .doubleEscape inWord
    | .substitution => false
    | _ => quiet cs .double true
  | c :: cs, .plainEscape, inWord =>
    if c = '\n' then quiet cs .plain inWord else quiet cs .plain true
  | c :: cs, .doubleEscape, inWord =>
    if c = '\n' then quiet cs .double inWord else quiet cs .double true
  | c :: cs, .comment, _ => if c = '\n' then false else quiet cs .comment false

theorem emit_words_iff (cur : Option (List Char)) (r : Except Fault (List Token)) :
    (∃ ws : List (List Char), emit (flush cur) r = .ok (ws.map .word)) ↔
      ∃ ws : List (List Char), r = .ok (ws.map .word) := by
  constructor
  · rintro ⟨ws, h⟩
    obtain ⟨vs, hv, hws⟩ := emit_ok h
    cases cur with
    | none => exact ⟨ws, hws ▸ hv⟩
    | some u =>
      cases ws with
      | nil => cases hws
      | cons w ws =>
        obtain ⟨-, hrest⟩ := List.cons.inj hws
        exact ⟨ws, hrest ▸ hv⟩
  · rintro ⟨ws, rfl⟩
    cases cur with
    | none => exact ⟨ws, rfl⟩
    | some u => exact ⟨u :: ws, rfl⟩

theorem not_words_of_error (f : Fault) :
    ¬ ∃ ws : List (List Char), (.error f : Except Fault (List Token)) = .ok (ws.map .word) := by
  rintro ⟨ws, h⟩
  cases h

/-- A text is read as words and nothing else just when it is quiet. -/
theorem lex_words_iff (cs : List Char) (m : Mode) (cur : Option (List Char)) :
    (∃ ws : List (List Char), lex cs m cur = .ok (ws.map .word)) ↔
      quiet cs m cur.isSome = true := by
  induction cs generalizing m cur with
  | nil =>
    cases m with
    | plain =>
      refine iff_of_true ?_ rfl
      cases cur with
      | none => exact ⟨[], rfl⟩
      | some u => exact ⟨[u], rfl⟩
    | plainEscape => exact iff_of_true ⟨[_], rfl⟩ rfl
    | comment => exact iff_of_true ⟨[], rfl⟩ rfl
    | single => exact iff_of_false (not_words_of_error _) Bool.false_ne_true
    | double => exact iff_of_false (not_words_of_error _) Bool.false_ne_true
    | doubleEscape => exact iff_of_false (not_words_of_error _) Bool.false_ne_true
  | cons c cs ih =>
    have hop : ∀ ts r, ¬ ∃ ws : List (List Char), emit (ts ++ [.op c]) r = .ok (ws.map .word) := by
      rintro ts r ⟨ws, h⟩
      obtain ⟨vs, -, hws⟩ := emit_ok h
      have hmem : Token.op c ∈ ws.map Token.word := by
        rw [hws]
        simp
      obtain ⟨w, -, hw⟩ := List.mem_map.1 hmem
      cases hw
    cases m with
    | plain =>
      rw [lex, quiet]
      cases hk : plainClass cur.isSome c cs with
      | blank => exact (emit_words_iff cur _).trans (ih .plain none)
      | operator => exact iff_of_false (hop _ _) Bool.false_ne_true
      | quote => exact ih .single (open_ cur)
      | doubleQuote => exact ih .double (open_ cur)
      | backslash => exact ih .plainEscape cur
      | substitution => exact iff_of_false (not_words_of_error _) Bool.false_ne_true
      | comment => exact ih .comment none
      | literal => exact ih .plain (push cur c)
    | single =>
      rw [lex, quiet]
      split
      · exact ih .plain cur
      · exact ih .single (push cur c)
    | double =>
      rw [lex, quiet]
      cases hk : quotedClass c cs with
      | doubleQuote => exact ih .plain cur
      | backslash => exact ih .doubleEscape cur
      | substitution => exact iff_of_false (not_words_of_error _) Bool.false_ne_true
      | _ => exact ih .double (push cur c)
    | plainEscape =>
      rw [lex, quiet]
      split
      · exact ih .plain cur
      · exact ih .plain (push cur c)
    | doubleEscape =>
      rw [lex, quiet]
      split
      · exact ih .double cur
      · split
        · exact ih .double (push cur c)
        · exact ih .double (push (push cur '\\') c)
    | comment =>
      rw [lex, quiet]
      split
      · exact iff_of_false (hop [] _) Bool.false_ne_true
      · exact ih .comment none

end Quiet

end Shell

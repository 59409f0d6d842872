import JXPanel.Shell

set_option autoImplicit true

/-! What one character of a command line does, and where a text leaves the reading when another
one follows it. -/

namespace Shell

/-- The tokens that a character completes, and how the reading goes on. -/
def act (c : Char) (cs : List Char) :
    Mode → Option (List Char) → Except Fault (List Token × Mode × Option (List Char))
  | .plain, cur =>
    match plainClass cur.isSome c cs with
    | .blank => .ok (flush cur, .plain, none)
    | .operator => .ok (flush cur ++ [.op c], .plain, none)
    | .quote => .ok ([], .single, open_ cur)
    | .doubleQuote => .ok ([], .double, open_ cur)
    | .backslash => .ok ([], .plainEscape, cur)
    | .substitution => .error .substitution
    | .comment => .ok ([], .comment, none)
    | .literal => .ok ([], .plain, push cur c)
  | .single, cur => if c = '\'' then .ok ([], .plain, cur) else .ok ([], .single, push cur c)
  | .double, cur =>
    match quotedClass c cs with
    | .doubleQuote => .ok ([], .plain, cur)
    | .backslash => .ok ([], .doubleEscape, cur)
    | .substitution => .error .substitution
    | _ => .ok ([], .double, push cur c)
  | .plainEscape, cur =>
    if c = '\n' then .ok ([], .plain, cur) else .ok ([], .plain, push cur c)
  | .doubleEscape, cur =>
    if c = '\n' then .ok ([], .double, cur)
    else if isEscapable c then .ok ([], .double, push cur c)
    else .ok ([], .double, push (push cur '\\') c)
  | .comment, _ =>
    if c = '\n' then .ok ([.op c], .plain, none) else .ok ([], .comment, none)

theorem emit_nil (r : Except Fault (List Token)) : emit [] r = r := by
  cases r <;> rfl

theorem emit_append (ts us : List Token) (r : Except Fault (List Token)) :
    emit (ts ++ us) r = emit ts (emit us r) := by
  cases r with
  | error f => rfl
  | ok vs =>
    have happ : ts ++ us ++ vs = ts ++ (us ++ vs) := List.append_assoc ts us vs
    exact congrArg Except.ok happ

/-- The reading of a line is that of its first character and of what is left. -/
theorem lex_cons (c : Char) (cs : List Char) (m : Mode) (cur : Option (List Char)) :
    lex (c :: cs) m cur = (act c cs m cur).bind fun r => emit r.1 (lex cs r.2.1 r.2.2) := by
  cases m with
  | plain =>
    rw [lex, act]
    cases plainClass cur.isSome c cs with
    | blank => rfl
    | operator => rfl
    | substitution => rfl
    | _ => exact (emit_nil _).symm
  | single =>
    rw [lex, act]
    split <;> exact (emit_nil _).symm
  | double =>
    rw [lex, act]
    cases quotedClass c cs with
    | substitution => rfl
    | _ => exact (emit_nil _).symm
  | plainEscape =>
    rw [lex, act]
    split <;> exact (emit_nil _).symm
  | doubleEscape =>
    rw [lex, act]
    split
    · exact (emit_nil _).symm
    · split <;> exact (emit_nil _).symm
  | comment =>
    rw [lex, act]
    split
    · rfl
    · exact (emit_nil _).symm

/-- What a character can do: it ends a word, begins a comment, is or ends one, has a meaning of
its own, or is added to the word. -/
inductive Acts (c : Char) :
    Mode → Option (List Char) → List Token → Mode → Option (List Char) → Prop
  | ended (cur : Option (List Char)) (ts : List Token) (hc : c ∈ specials)
      (hts : ts = flush cur ∨ ts = flush cur ++ [.op c]) : Acts c .plain cur ts .plain none
  | hash (hc : c = '#') : Acts c .plain none [] .comment none
  | skipped (cur : Option (List Char)) : Acts c .comment cur [] .comment none
  | newline (cur : Option (List Char)) (hc : c ∈ specials) : Acts c .comment cur [.op c] .plain none
  | kept (m m' : Mode) (cur cur' : Option (List Char)) (hc : c ∈ specials) (hm : m ≠ .comment)
      (hm' : m' ≠ .comment) (hcur : cur'.getD [] = cur.getD [])
      (hsome : cur.isSome = true → cur'.isSome = true)
      (hesc : c = '\\' ∨ m' ≠ .plainEscape ∧ m' ≠ .doubleEscape) : Acts c m cur [] m' cur'
  | pushed (m m' : Mode) (cur : Option (List Char)) (hm : m ≠ .comment) (hm' : m' ≠ .comment)
      (hesc : m' ≠ .plainEscape ∧ m' ≠ .doubleEscape) : Acts c m cur [] m' (push cur c)
  | both (cur : Option (List Char)) : Acts c .doubleEscape cur [] .double (push (push cur '\\') c)

theorem special_of_plainClass {b : Bool} {c : Char} {cs : List Char}
    (h : plainClass b c cs ≠ .literal) : c ∈ specials := by
  by_contra hc
  exact h (literal_of_not_special hc b cs).1

theorem special_of_quotedClass {c : Char} {cs : List Char} (h : quotedClass c cs ≠ .literal) :
    c ∈ specials := by
  by_contra hc
  exact h (literal_of_not_special hc true cs).2

theorem plainClass_comment {b : Bool} {c : Char} {cs : List Char}
    (h : plainClass b c cs = .comment) : c = '#' ∧ b = false := by
  unfold plainClass at h
  repeat' split at h
  all_goals first
    | assumption
    | cases h

theorem acts_of_act {c : Char} {cs : List Char} {m m' : Mode} {cur cur' : Option (List Char)}
    {ts : List Token} (h : act c cs m cur = .ok (ts, m', cur')) : Acts c m cur ts m' cur' := by
  have hopen : ∀ cur : Option (List Char), (open_ cur).getD [] = cur.getD [] := fun _ => rfl
  have hopen' : ∀ cur : Option (List Char), (open_ cur).isSome = true := fun _ => rfl
  cases m with
  | plain =>
    rw [act] at h
    have hspecial := @special_of_plainClass cur.isSome c cs
    cases hk : plainClass cur.isSome c cs with
    | blank =>
      rw [hk] at h hspecial
      cases h
      exact .ended cur _ (hspecial (by decide)) (.inl rfl)
    | operator =>
      rw [hk] at h hspecial
      cases h
      exact .ended cur _ (hspecial (by decide)) (.inr rfl)
    | substitution =>
      rw [hk] at h
      cases h
    | quote =>
      rw [hk] at h hspecial
      cases h
      exact .kept _ _ _ _ (hspecial (by decide)) (by decide) (by decide) (hopen cur)
        (fun _ => hopen' cur) (.inr (by decide))
    | doubleQuote =>
      rw [hk] at h hspecial
      cases h
      exact .kept _ _ _ _ (hspecial (by decide)) (by decide) (by decide) (hopen cur)
        (fun _ => hopen' cur) (.inr (by decide))
    | backslash =>
      rw [hk] at h hspecial
      cases h
      exact .kept _ _ _ _ (hspecial (by decide)) (by decide) (by decide) rfl id
        (.inl (plainClass_backslash hk))
    | comment =>
      obtain ⟨hc, hcur⟩ := plainClass_comment hk
      rw [hk] at h
      cases h
      cases cur with
      | none => exact .hash hc
      | some u => cases hcur
    | literal =>
      rw [hk] at h
      cases h
      exact .pushed _ _ _ (by decide) (by decide) (by decide)
  | single =>
    rw [act] at h
    split at h
    · rename_i hc
      cases h
      exact .kept _ _ _ _ (by rw [hc]; decide) (by decide) (by decide) rfl id (.inr (by decide))
    · cases h
      exact .pushed _ _ _ (by decide) (by decide) (by decide)
  | double =>
    rw [act] at h
    have hspecial := @special_of_quotedClass c cs
    cases hk : quotedClass c cs with
    | doubleQuote =>
      rw [hk] at h hspecial
      cases h
      exact .kept _ _ _ _ (hspecial (by decide)) (by decide) (by decide) rfl id (.inr (by decide))
    | backslash =>
      rw [hk] at h hspecial
      cases h
      exact .kept _ _ _ _ (hspecial (by decide)) (by decide) (by decide) rfl id
        (.inl (quotedClass_backslash hk))
    | substitution =>
      rw [hk] at h
      cases h
    | _ =>
      rw [hk] at h
      cases h
      exact .pushed _ _ _ (by decide) (by decide) (by decide)
  | plainEscape =>
    rw [act] at h
    split at h
    · rename_i hc
      cases h
      exact .kept _ _ _ _ (by rw [hc]; decide) (by decide) (by decide) rfl id (.inr (by decide))
    · cases h
      exact .pushed _ _ _ (by decide) (by decide) (by decide)
  | doubleEscape =>
    rw [act] at h
    split at h
    · rename_i hc
      cases h
      exact .kept _ _ _ _ (by rw [hc]; decide) (by decide) (by decide) rfl id (.inr (by decide))
    · split at h
      · cases h
        exact .pushed _ _ _ (by decide) (by decide) (by decide)
      · cases h
        exact .both cur
  | comment =>
    rw [act] at h
    split at h
    · rename_i hc
      cases h
      exact .newline cur (by rw [hc]; decide)
    · cases h
      exact .skipped cur

/-- A line that is read: its first character, and the rest of it. -/
theorem lex_cons_ok {c : Char} {cs : List Char} {m : Mode} {cur : Option (List Char)}
    {ts : List Token} (h : lex (c :: cs) m cur = .ok ts) :
    ∃ ts₁ m' cur' ts₂, Acts c m cur ts₁ m' cur' ∧ lex cs m' cur' = .ok ts₂ ∧ ts = ts₁ ++ ts₂ := by
  rw [lex_cons] at h
  cases hact : act c cs m cur with
  | error f =>
    rw [hact] at h
    cases h
  | ok r =>
    obtain ⟨ts₁, m', cur'⟩ := r
    rw [hact] at h
    obtain ⟨ts₂, hlex, hts⟩ := emit_ok h
    exact ⟨ts₁, m', cur', ts₂, acts_of_act hact, hlex, hts⟩

/-- A word that has begun is the first token, and goes on from there. -/
theorem lex_begun {cs : List Char} {m : Mode} (hm : m ≠ .comment) {u : List Char}
    {ts : List Token} (h : lex cs m (some u) = .ok ts) :
    ∃ t vs, ts = .word t :: vs ∧ u <+: t := by
  induction cs generalizing m u ts with
  | nil =>
    cases m with
    | comment => exact (hm rfl).elim
    | plain => exact ⟨u, [], (Except.ok.inj h).symm, List.prefix_rfl⟩
    | plainEscape =>
      exact ⟨u ++ ['\\'], [], (Except.ok.inj h).symm, List.prefix_append _ _⟩
    | _ => cases h
  | cons c cs ih =>
    obtain ⟨ts₁, m', cur', ts₂, hacts, hlex, rfl⟩ := lex_cons_ok h
    cases hacts with
    | ended _ _ hc hts =>
      rcases hts with rfl | rfl
      · exact ⟨u, ts₂, rfl, List.prefix_rfl⟩
      · exact ⟨u, .op c :: ts₂, rfl, List.prefix_rfl⟩
    | skipped => exact (hm rfl).elim
    | newline => exact (hm rfl).elim
    | kept _ _ _ _ hc _ hm' hcur hsome hesc =>
      obtain ⟨v, rfl⟩ := Option.isSome_iff_exists.1 (hsome rfl)
      rw [← show v = u from hcur]
      exact ih hm' hlex
    | pushed _ _ _ _ hm' hesc =>
      obtain ⟨t, vs, ht, hpre⟩ := ih hm' hlex
      exact ⟨t, vs, ht, (List.prefix_append u [c]).trans hpre⟩
    | both =>
      obtain ⟨t, vs, ht, hpre⟩ := ih (by decide) hlex
      have hback : u <+: u ++ ['\\'] ++ [c] :=
        (List.prefix_append u ['\\']).trans (List.prefix_append _ [c])
      exact ⟨t, vs, ht, hback.trans hpre⟩

section Total
variable (ω : Char → Nat)

def tokenWeight : Token → Nat
  | .word w => weight ω w
  | .op _ => 0

def tokensWeight (ts : List Token) : Nat := (ts.map (tokenWeight ω)).sum

theorem tokensWeight_append (l r : List Token) :
    tokensWeight ω (l ++ r) = tokensWeight ω l + tokensWeight ω r := by
  simp [tokensWeight]

theorem tokensWeight_flush (cur : Option (List Char)) :
    tokensWeight ω (flush cur) = weight ω (cur.getD []) := by
  cases cur with
  | none => rfl
  | some u => simp [flush, tokensWeight, tokenWeight]

theorem pending_of_not_escape {m : Mode} (h : m ≠ .plainEscape ∧ m ≠ .doubleEscape) :
    pending ω m = 0 := by
  cases m with
  | plainEscape => exact (h.1 rfl).elim
  | doubleEscape => exact (h.2 rfl).elim
  | _ => rfl

theorem pending_le (m : Mode) : pending ω m ≤ ω '\\' := by
  cases m with
  | plainEscape => exact Nat.le_refl _
  | doubleEscape => exact Nat.le_refl _
  | _ => exact Nat.zero_le _

/-- A character adds no more than its own weight. -/
theorem Acts.weight_le {c : Char} {m m' : Mode} {cur cur' : Option (List Char)} {ts : List Token}
    (h : Acts c m cur ts m' cur') :
    tokensWeight ω ts + weight ω (cur'.getD []) + pending ω m' ≤
      weight ω (cur.getD []) + ω c + pending ω m := by
  have hnil : weight ω [] = 0 := rfl
  have hop : tokensWeight ω [.op c] = 0 := rfl
  have hnone : tokensWeight ω [] = 0 := rfl
  cases h with
  | ended _ _ hc hts =>
    rcases hts with rfl | rfl
    · rw [tokensWeight_flush, Option.getD_none, hnil]
      simp only [pending]
      omega
    · rw [tokensWeight_append, tokensWeight_flush, hop, Option.getD_none, hnil]
      simp only [pending]
      omega
  | hash hc => exact Nat.zero_le _
  | skipped => exact Nat.zero_le _
  | newline => exact Nat.zero_le _
  | kept _ _ _ _ hc _ hm' hcur hsome hesc =>
    rw [hcur, hnone]
    rcases hesc with rfl | hesc
    · have hle := pending_le ω m'
      omega
    · rw [pending_of_not_escape ω hesc]
      omega
  | pushed _ _ _ _ hm' hesc =>
    have hpush : (push cur c).getD [] = cur.getD [] ++ [c] := rfl
    rw [pending_of_not_escape ω hesc, hpush, weight_push, hnone]
    omega
  | both =>
    have hpush : (push (push cur '\\') c).getD [] = cur.getD [] ++ ['\\'] ++ [c] := rfl
    rw [hpush, weight_push, weight_push, hnone]
    simp only [pending]
    omega

/-- All that is read of a text with a quote at its end is no heavier than the text: the quote
ends what is open, or what it ends a backslash has been lost. -/
theorem tokensWeight_le {q : Char} (hq : q = '\'' ∨ q = '"') (hω : ω q ≤ ω '\\')
    {text : List Char} {m : Mode} {cur : Option (List Char)} {ts : List Token}
    (h : lex (text ++ [q]) m cur = .ok ts) :
    tokensWeight ω ts ≤ weight ω (cur.getD []) + weight ω text + pending ω m := by
  induction text generalizing m cur ts with
  | nil =>
    rw [List.nil_append] at h
    by_cases hm : m = .comment
    · subst hm
      rcases hq with rfl | rfl
      · cases h
        exact Nat.zero_le _
      · cases h
        exact Nat.zero_le _
    · obtain ⟨f, hopen⟩ | ⟨hp, hstop⟩ | ⟨hp, hstop⟩ :=
        lex_last_quote hq (List.not_mem_nil) (List.not_mem_nil) hm cur
      · rw [hopen] at h
        cases h
      · rw [hstop] at h
        cases h
        rw [tokensWeight_flush]
        omega
      · subst hp
        rw [hstop] at h
        cases h
        have hpush : (push cur q).getD [] = cur.getD [] ++ [q] := rfl
        rw [tokensWeight_flush, hpush, weight_push]
        simp only [pending]
        omega
  | cons c text ih =>
    obtain ⟨ts₁, m', cur', ts₂, hacts, hlex, rfl⟩ := lex_cons_ok h
    have hstep := hacts.weight_le ω
    have hrest := ih hlex
    rw [tokensWeight_append, weight_cons]
    omega

end Total

section Leave
variable (next : List Char)

/-- The tokens of a text that another one follows, and where it leaves the reading. -/
def scan : List Char → Mode → Option (List Char) →
    Except Fault (List Token × Mode × Option (List Char))
  | [], m, cur => .ok ([], m, cur)
  | c :: cs, m, cur =>
    (act c (cs ++ next) m cur).bind fun r =>
      (scan cs r.2.1 r.2.2).map fun q => (r.1 ++ q.1, q.2)

theorem lex_append (cs : List Char) (m : Mode) (cur : Option (List Char)) :
    lex (cs ++ next) m cur =
      (scan next cs m cur).bind fun q => emit q.1 (lex next q.2.1 q.2.2) := by
  induction cs generalizing m cur with
  | nil => exact (emit_nil _).symm
  | cons c cs ih =>
    rw [List.cons_append, lex_cons, scan]
    cases hact : act c (cs ++ next) m cur with
    | error f => rfl
    | ok r =>
      have hok : ∀ (g : List Token × Mode × Option (List Char) → Except Fault (List Token)),
          (Except.ok r : Except Fault _).bind g = g r := fun _ => rfl
      rw [hok, ih]
      have hok' : ∀ (g : List Token × Mode × Option (List Char) →
          Except Fault (List Token × Mode × Option (List Char))),
          (Except.ok r : Except Fault _).bind g = g r := fun _ => rfl
      rw [hok']
      cases scan next cs r.2.1 r.2.2 with
      | error f => rfl
      | ok q => exact (emit_append r.1 q.1 _).symm

theorem scan_cons_ok {c : Char} {cs : List Char} {m m' : Mode} {cur cur' : Option (List Char)}
    {ts : List Token} (h : scan next (c :: cs) m cur = .ok (ts, m', cur')) :
    ∃ ts₁ m₁ cur₁ ts₂, Acts c m cur ts₁ m₁ cur₁ ∧ scan next cs m₁ cur₁ = .ok (ts₂, m', cur') ∧
      ts = ts₁ ++ ts₂ := by
  rw [scan] at h
  cases hact : act c (cs ++ next) m cur with
  | error f =>
    rw [hact] at h
    cases h
  | ok r =>
    obtain ⟨ts₁, m₁, cur₁⟩ := r
    rw [hact] at h
    have h' : (scan next cs m₁ cur₁).map (fun q => (ts₁ ++ q.1, q.2)) = .ok (ts, m', cur') := h
    cases hscan : scan next cs m₁ cur₁ with
    | error f =>
      rw [hscan] at h'
      cases h'
    | ok q =>
      obtain ⟨ts₂, m₂, cur₂⟩ := q
      rw [hscan] at h'
      cases h'
      exact ⟨ts₁, m₁, cur₁, ts₂, acts_of_act hact, hscan, rfl⟩

/-- A text without these characters at its start and behind a character that may have a meaning. -/
def apart (bad : List Char) : Bool → List Char → Bool
  | _, [] => true
  | start, c :: cs => !(start && decide (c ∈ bad)) && apart bad (decide (c ∈ specials)) cs

/-- Words that do not begin with any of these characters. -/
def Clear (bad : List Char) (cur : Option (List Char)) : Prop :=
  ∀ c, (cur.getD []).head? = some c → c ∉ bad

theorem Clear.add {bad : List Char} {cur : Option (List Char)} (h : Clear bad cur) {c : Char}
    (hc : cur.getD [] = [] → c ∉ bad) : Clear bad (push cur c) := by
  intro d hd
  have hpush : (push cur c).getD [] = cur.getD [] ++ [c] := rfl
  rw [hpush] at hd
  cases hu : cur.getD [] with
  | nil =>
    rw [hu] at hd
    rw [← Option.some.inj hd]
    exact hc hu
  | cons e u =>
    apply h d
    rw [hu] at hd ⊢
    exact hd

theorem mem_flush {w : List Char} {cur : Option (List Char)} (h : .word w ∈ flush cur) :
    cur = some w := by
  cases cur with
  | none => cases h
  | some u =>
    have heq := List.mem_singleton.1 h
    rw [Token.word.inj heq]

/-- No word of a text begins with a character that stands nowhere at the start of one, and with
the number sign among them no comment begins. -/
theorem scan_clear {bad : List Char} (hhash : '#' ∈ bad) (hback : '\\' ∉ bad) {cs : List Char}
    {start : Bool} (hcs : apart bad start cs = true) {m m' : Mode} (hm : m ≠ .comment)
    {cur cur' : Option (List Char)} (hcur : Clear bad cur) (hstart : cur.getD [] = [] → start = true)
    {ts : List Token} (h : scan next cs m cur = .ok (ts, m', cur')) :
    m' ≠ .comment ∧ Clear bad cur' ∧ ∀ w, .word w ∈ ts → Clear bad (some w) := by
  induction cs generalizing start m cur ts with
  | nil =>
    cases h
    refine ⟨hm, hcur, ?_⟩
    intro w hw
    cases hw
  | cons c cs ih =>
    obtain ⟨ts₁, m₁, cur₁, ts₂, hacts, hscan, rfl⟩ := scan_cons_ok next h
    rw [apart, Bool.and_eq_true] at hcs
    obtain ⟨hfirst, hrest⟩ := hcs
    have hfresh : cur.getD [] = [] → c ∉ bad := by
      intro hnil
      rw [hstart hnil, Bool.true_and] at hfirst
      simpa using hfirst
    cases hacts with
    | ended _ _ hc hts =>
      obtain ⟨hm', hcur', hwords⟩ := ih hrest (by decide) (by intro d hd; cases hd)
        (fun _ => decide_eq_true hc) hscan
      refine ⟨hm', hcur', ?_⟩
      intro w hw
      rcases List.mem_append.1 hw with hw | hw
      · have hflush : .word w ∈ flush cur := by
          rcases hts with rfl | rfl
          · exact hw
          · simpa using hw
        rw [← mem_flush hflush]
        exact hcur
      · exact hwords w hw
    | hash hc => exact (hfresh rfl (hc ▸ hhash)).elim
    | skipped => exact (hm rfl).elim
    | newline => exact (hm rfl).elim
    | kept _ _ _ _ hc _ hm₁ hsame hsome hesc =>
      apply ih hrest hm₁ _ (fun _ => decide_eq_true hc) hscan
      intro d hd
      rw [hsame] at hd
      exact hcur d hd
    | pushed _ _ _ _ hm₁ hesc =>
      apply ih hrest hm₁ (hcur.add hfresh) _ hscan
      intro hnil
      simp [push] at hnil
    | both =>
      apply ih hrest (by decide) _ _ hscan
      · apply (hcur.add fun _ => hback).add
        intro hnil
        simp [push] at hnil
      · intro hnil
        simp [push] at hnil

/-- A character without a meaning leaves the reading in a word. -/
theorem scan_last {c : Char} (hc : c ∉ specials) {cs : List Char} {m m' : Mode} (hm' : m' ≠ .comment)
    {cur cur' : Option (List Char)} {ts : List Token}
    (h : scan next (cs ++ [c]) m cur = .ok (ts, m', cur')) :
    (m' = .plain ∨ m' = .single ∨ m' = .double) ∧ ∃ u, u ≠ [] ∧ cur' = some u := by
  induction cs generalizing m cur ts with
  | nil =>
    obtain ⟨ts₁, m₁, cur₁, ts₂, hacts, hscan, -⟩ := scan_cons_ok next h
    cases hscan
    have hmodes : ∀ m : Mode, m ≠ .comment → m ≠ .plainEscape ∧ m ≠ .doubleEscape →
        m = .plain ∨ m = .single ∨ m = .double := by
      intro m hcomment hesc
      cases m with
      | plain => exact .inl rfl
      | single => exact .inr (.inl rfl)
      | double => exact .inr (.inr rfl)
      | comment => exact (hcomment rfl).elim
      | plainEscape => exact (hesc.1 rfl).elim
      | doubleEscape => exact (hesc.2 rfl).elim
    cases hacts with
    | ended _ _ hspecial hts => exact (hc hspecial).elim
    | hash => exact (hm' rfl).elim
    | skipped => exact (hm' rfl).elim
    | newline _ hspecial => exact (hc hspecial).elim
    | kept _ _ _ _ hspecial => exact (hc hspecial).elim
    | pushed _ _ _ _ hm₁ hesc => exact ⟨hmodes _ hm₁ hesc, _, List.append_ne_nil_of_right_ne_nil _ (List.cons_ne_nil _ _), rfl⟩
    | both => exact ⟨by decide, _, List.append_ne_nil_of_right_ne_nil _ (List.cons_ne_nil _ _), rfl⟩
  | cons d cs ih =>
    obtain ⟨ts₁, m₁, cur₁, ts₂, hacts, hscan, -⟩ := scan_cons_ok next h
    exact ih hscan

/-- Of what follows only that it begins with a blank matters. -/
theorem scan_blank (rest cs : List Char) (m : Mode) (cur : Option (List Char)) :
    scan (' ' :: rest) cs m cur = scan [' '] cs m cur := by
  induction cs generalizing m cur with
  | nil => rfl
  | cons c cs ih =>
    have hact : ∀ next, act c (cs ++ ' ' :: next) m cur = act c cs m cur := by
      intro next
      cases m with
      | plain => rw [act, act, plainClass_append _ c cs (by decide)]
      | double => rw [act, act, quotedClass_append c cs (by decide)]
      | _ => rfl
    rw [scan, scan, hact rest, hact []]
    simp only [ih]

end Leave

end Shell

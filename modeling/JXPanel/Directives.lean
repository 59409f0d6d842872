import JXPanel.NginxConf
import JXPanel.NginxLexer

namespace JXPanel
set_option autoImplicit true

open Nginx Lexer

/-- What `createConfig` makes of the directives of a plan, if there are any. -/
def directivesBlock (directives : String) : String :=
  directivesText (if directives = "" then none else some directives)

namespace Directives

/-- A text is read to its end as these directives, and the next one may begin behind it. -/
def Reads (cs : List Char) (directives : List (List (List Char))) : Prop :=
  ∃ q, start.run cs = some q ∧ q.Ended directives

def dropBreaks (cs : List Char) : List Char := cs.filter (· ≠ '\n')

/-- Each semicolon is followed by a new line. -/
def spread (cs : List Char) : List Char := cs.flatMap fun c => if c = ';' then ";\n    ".toList else [c]

/-- Behind some line breaks comes what ends a word anyway. -/
def EndsWord (cs : List Char) : Prop :=
  ∀ c ∈ (cs.dropWhile fun c => decide (c = '\n')).head?, isSpace c = true ∨ c = ';'

/-- A text up to a rest: no line break stands in a quoted word, behind a backslash, in a comment, or before what
would go on with the word in front, and no semicolon in a quoted word, behind a backslash or in a comment. -/
inductive Open : Lexer → List Char → List Char → Prop
  | nil (q : Lexer) (rest : List Char) : Open q [] rest
  | step (q : Lexer) (c : Char) (cs rest : List Char)
      (hbreak : c = '\n' → q.Live ∧ (q.mode ≠ .space → EndsWord (cs ++ rest)))
      (hsemi : c = ';' → q.Live) (hs : q.step c = some q') (h : Open q' cs rest) : Open q (c :: cs) rest

/-- The rest of a text is nothing but comments without semicolons, behind a directive that is complete. -/
structure Commented (q : Lexer) (rest : List Char) : Prop where
  begins : ∃ cs, rest = '#' :: cs ∧ ';' ∉ cs
  ended : q.Ended q.directives
  silent : ∃ b, q.run rest = some { q with comment := b }

/-- What is trimmed has no meaning, and the rest is open up to its end or to its last comments. -/
def Kept (s : List Char) : Prop :=
  lex (trim s) = lex s ∧ ∃ m rest q, trim s = m ++ rest ∧ start.run m = some q ∧ Open start m rest ∧
    ((rest = [] ∧ q.comment = false) ∨ Commented q rest)

/-- No quotes, backslashes, comments and braces, and no white space that is none to nginx. -/
def Plain (s : List Char) : Prop :=
  ∀ c ∈ s, c ∉ ['"', apostrophe, '\\', '#', '\x7b', '\x7d'] ∧ (jsSpace c = true → isSpace c = true)

def wordChar (c : Char) : Bool := !isSpace c && decide (c ≠ ';')

/-- Nothing but line breaks stands between two characters of words. -/
def Joined (s : List Char) : Prop :=
  ∃ a c breaks d b, s = a ++ c :: (breaks ++ d :: b) ∧ wordChar c = true ∧ wordChar d = true ∧
    breaks ≠ [] ∧ ∀ x ∈ breaks, x = '\n'

section Emitted
variable {q q' : Lexer} {c : Char} {cs ds : List Char} {directives : List (List (List Char))}

theorem spread_append (cs ds : List Char) : spread (cs ++ ds) = spread cs ++ spread ds := List.flatMap_append

theorem spread_eq_self (h : ';' ∉ cs) : spread cs = cs := by
  induction cs with
  | nil => rfl
  | cons c cs ih =>
    have hc : c ≠ ';' := fun hc => h (hc ▸ List.mem_cons_self)
    rw [spread, List.flatMap_cons, if_neg hc]
    exact congrArg (c :: ·) (ih fun hm => h (List.mem_cons_of_mem c hm))

/-- New lines between directives have no meaning. -/
theorem run_spread (hl : q.Lively cs) (hrun : q.run cs = some q') : q.run (spread cs) = some q' := by
  induction cs generalizing q with
  | nil => exact hrun
  | cons c cs ih =>
    rw [run] at hrun
    obtain ⟨q₁, hs, hrun⟩ := Option.bind_eq_some_iff.1 hrun
    have hih := ih (hl.tail hs) hrun
    rw [spread, List.flatMap_cons]
    by_cases hc : c = ';'
    · subst hc
      have hfresh := hl.head.step_semicolon
      rw [hs] at hfresh
      have hspaces : ∀ c ∈ "\n    ".toList, isSpace c = true := by simp [isSpace]
      have hq₁ : q₁.run "\n    ".toList = some q₁ := by
        rw [Option.some.inj hfresh]
        exact (live_between _).run_spaces rfl hspaces
      have hrest : (q₁.run "\n    ".toList).bind (fun q => q.run (spread cs)) = some q' := by
        rw [hq₁]
        exact hih
      rw [← Lexer.run_append] at hrest
      rw [if_pos rfl]
      change q.run (';' :: ("\n    ".toList ++ spread cs)) = some q'
      rw [run, hs]
      exact hrest
    · rw [if_neg hc]
      change q.run (c :: spread cs) = some q'
      rw [run, hs]
      exact hih

/-- Empty statements have no meaning. -/
theorem run_joinSemicolons (hl : q.Lively cs) (hrun : q.run cs = some q') :
    q.run (joinSemicolons cs) = some q' ∧ q.Lively (joinSemicolons cs) := by
  fun_induction joinSemicolons cs generalizing q with
  | case1 cs ih =>
    have hs := hl.head.step_semicolon
    have hl' := hl.tail hs
    have hagain : (between q.close.endDirective.directives).step ';' = some q.close.endDirective := rfl
    rw [run, hs] at hrun
    obtain ⟨hrun', hl''⟩ := ih (hl'.tail hagain) hrun
    refine ⟨?_, Lively.cons (fun _ => hl.head) fun q₁ hs' => ?_⟩
    · rw [run, hs]
      exact hrun'
    · rw [hs] at hs'
      rw [← Option.some.inj hs']
      exact hl''
  | case2 c cs _ ih =>
    rw [run] at hrun
    obtain ⟨q₁, hs, hrun⟩ := Option.bind_eq_some_iff.1 hrun
    obtain ⟨hrun', hl'⟩ := ih (hl.tail hs) hrun
    refine ⟨?_, Lively.cons (fun hc => ?_) fun q₂ hs' => ?_⟩
    · rw [run, hs]
      exact hrun'
    · subst hc
      exact hl.head
    · rw [hs] at hs'
      rw [← Option.some.inj hs']
      exact hl'
  | case3 => exact ⟨hrun, hl⟩

/-- A semicolon at the end stays there. -/
theorem joinSemicolons_concat (cs : List Char) : ∃ ds, joinSemicolons (cs ++ [';']) = ds ++ [';'] := by
  fun_induction joinSemicolons cs with
  | case1 cs ih =>
    obtain ⟨ds, hds⟩ := ih
    exact ⟨';' :: ds, congrArg (';' :: ·) hds⟩
  | case2 c cs hno ih =>
    obtain ⟨ds, hds⟩ := ih
    cases cs with
    | nil =>
      by_cases hc : c = ';'
      · subst hc
        exact ⟨[], rfl⟩
      · refine ⟨[c], ?_⟩
        change joinSemicolons (c :: [';']) = [c, ';']
        rw [joinSemicolons]
        · rfl
        · intro ds hc' _
          exact hc hc'
    | cons d cs =>
      refine ⟨c :: ds, ?_⟩
      rw [List.cons_append, joinSemicolons, hds]
      · rfl
      · rintro es rfl hes
        cases hes
        exact hno _ rfl rfl
  | case3 => exact ⟨[], rfl⟩

/-- A text that does not begin with a semicolon is joined apart from what stands in front. -/
theorem joinSemicolons_append (hd : ∀ c ∈ ds.head?, c ≠ ';') :
    joinSemicolons (cs ++ ds) = joinSemicolons cs ++ joinSemicolons ds := by
  fun_induction joinSemicolons cs with
  | case1 cs ih => exact congrArg (';' :: ·) ih
  | case2 c cs hno ih =>
    rw [List.cons_append, joinSemicolons, ih]
    · rfl
    · rintro es rfl hes
      cases cs with
      | nil =>
        rw [List.nil_append] at hes
        exact hd ';' (by rw [hes]; rfl) rfl
      | cons d cs =>
        cases hes
        exact hno _ rfl rfl
  | case3 => rfl

end Emitted

section Dropped
variable {p q q' : Lexer} {m rest cs : List Char}

/-- A reader that still waits for the end of a word which the other one has seen. -/
structure Waits (p q : Lexer) (rest : List Char) : Prop where
  live : p.Live
  close : q = p.close
  ends : EndsWord rest

theorem endsWord_break (h : EndsWord ('\n' :: cs)) : EndsWord cs := h

/-- Without the line breaks an open text is read as with them, but for a word that may still wait for its end. -/
theorem Open.run_dropBreaks (h : Open q m rest) (hpq : p = q ∨ Waits p q (m ++ rest)) {q₁ : Lexer}
    (hrun : q.run m = some q₁) :
    ∃ p₁, p.run (dropBreaks m) = some p₁ ∧ (p₁ = q₁ ∨ Waits p₁ q₁ rest) ∧ p.Lively (dropBreaks m) := by
  induction h generalizing p with
  | nil q rest =>
    cases hrun
    exact ⟨p, rfl, hpq, lively_nil p⟩
  | @step q' q c cs rest hbreak hsemi hs _ ih =>
    rw [run, hs, Option.bind_some] at hrun
    -- the other reader takes the same character, or none
    have hsame : ∀ q₂, c ≠ '\n' → (c = ';' → p.Live) → p.step c = some q₂ → q₂ = q' →
        ∃ p₁, p.run (dropBreaks (c :: cs)) = some p₁ ∧ (p₁ = q₁ ∨ Waits p₁ q₁ rest) ∧
          p.Lively (dropBreaks (c :: cs)) := by
      rintro q₂ hc hlive hp rfl
      obtain ⟨p₁, hp₁, hend, hl⟩ := ih (.inl rfl) hrun
      have hdrop : dropBreaks (c :: cs) = c :: dropBreaks cs := List.filter_cons_of_pos (decide_eq_true hc)
      refine ⟨p₁, ?_, hend, ?_⟩
      · rw [hdrop, run, hp]
        exact hp₁
      · rw [hdrop]
        apply Lively.cons hlive
        intro q₃ hq₃
        rw [hp] at hq₃
        rw [← Option.some.inj hq₃]
        exact hl
    have hskip : c = '\n' → (p = q' ∨ Waits p q' (cs ++ rest)) →
        ∃ p₁, p.run (dropBreaks (c :: cs)) = some p₁ ∧ (p₁ = q₁ ∨ Waits p₁ q₁ rest) ∧
          p.Lively (dropBreaks (c :: cs)) := by
      rintro rfl hnext
      have hdrop : dropBreaks ('\n' :: cs) = dropBreaks cs := List.filter_cons_of_neg (by decide)
      rw [hdrop]
      exact ih hnext hrun
    have hspace : isSpace '\n' = true := by decide
    rcases hpq with rfl | hwait
    · by_cases hc : c = '\n'
      · obtain ⟨hlive, hends⟩ := hbreak hc
        apply hskip hc
        subst hc
        rw [hlive.step_space hspace] at hs
        have hq' := Option.some.inj hs
        by_cases hm : p.mode = .space
        · left
          rw [← hq']
          obtain ⟨mode, quoted, variable_, comment, raw, args, directives⟩ := p
          cases hm
          rfl
        · exact .inr ⟨hlive, hq'.symm, hends hm⟩
      · exact hsame q' hc hsemi hs rfl
    · obtain ⟨hlive, rfl, hends⟩ := hwait
      have hclosed := live_close hlive
      by_cases hc : c = '\n'
      · apply hskip hc
        subst hc
        rw [hclosed.step_space hspace, close_close] at hs
        exact .inr ⟨hlive, (Option.some.inj hs).symm, endsWord_break hends⟩
      · have hfirst : isSpace c = true ∨ c = ';' := by
          apply hends
          rw [List.cons_append, List.dropWhile_cons, if_neg (by rw [decide_eq_true_iff]; exact hc)]
          rfl
        rcases hfirst with hc' | hc'
        · rw [hclosed.step_space hc', close_close] at hs
          exact hsame _ hc (fun _ => hlive) (hlive.step_space hc') (Option.some.inj hs)
        · subst hc'
          rw [hclosed.step_semicolon, close_close] at hs
          exact hsame _ hc (fun _ => hlive) hlive.step_semicolon (Option.some.inj hs)

/-- A text without line breaks and semicolons is open. -/
theorem open_of_not_mem (hbreak : '\n' ∉ m) (hsemi : ';' ∉ m) (hrun : q.run m = some q') : Open q m rest := by
  induction m generalizing q with
  | nil => exact .nil q rest
  | cons c cs ih =>
    rw [run] at hrun
    obtain ⟨q₁, hs, hrun⟩ := Option.bind_eq_some_iff.1 hrun
    have hrest := ih (fun hm => hbreak (List.mem_cons_of_mem c hm)) (fun hm => hsemi (List.mem_cons_of_mem c hm)) hrun
    refine Open.step q c cs rest (fun hc => ?_) (fun hc => ?_) hs hrest
    · exact absurd (hc ▸ List.mem_cons_self) hbreak
    · exact absurd (hc ▸ List.mem_cons_self) hsemi

end Dropped

section Block
variable {directives : List (List (List Char))} {cs ds : List Char}

theorem trim_spread (hhead : ∀ c ∈ (spread (ds ++ [';'])).head?, jsSpace c = false) :
    trim (spread (ds ++ [';'])) = spread ds ++ [';'] := by
  have hspread : spread (ds ++ [';']) = spread ds ++ (';' :: "\n    ".toList) := by
    rw [spread_append]
    rfl
  have hfront : (spread (ds ++ [';'])).dropWhile jsSpace = spread (ds ++ [';']) := by
    cases hs : spread (ds ++ [';']) with
    | nil => rfl
    | cons c cs =>
      rw [hs] at hhead
      rw [List.dropWhile_cons, hhead c rfl, if_neg Bool.false_ne_true]
  have hback : ("\n    ".toList.reverse ++ ';' :: (spread ds).reverse).dropWhile jsSpace =
      ';' :: (spread ds).reverse := rfl
  rw [trim, hfront, hspread, List.reverse_append, List.reverse_cons, List.append_assoc]
  change (("\n    ".toList.reverse ++ ';' :: (spread ds).reverse).dropWhile jsSpace).reverse = _
  rw [hback, List.reverse_cons, List.reverse_reverse]

theorem head_spread (cs : List Char) : (spread cs).head? = cs.head? := by
  cases cs with
  | nil => rfl
  | cons c cs =>
    rw [spread, List.flatMap_cons]
    split
    · rename_i hc
      rw [hc]
      rfl
    · rfl

theorem head_joinSemicolons (cs : List Char) : (joinSemicolons cs).head? = cs.head? := by
  fun_cases joinSemicolons cs with
  | case1 cs => rfl
  | case2 c cs => rfl
  | case3 => rfl

/-- A trimmed text begins with no white space. -/
theorem head_trim (s : List Char) : ∀ c ∈ (trim s).head?, jsSpace c = false := by
  obtain ⟨back, hback⟩ := List.dropWhile_suffix (l := (s.dropWhile jsSpace).reverse) jsSpace
  intro c hc
  have hfront : s.dropWhile jsSpace = trim s ++ back.reverse := by
    rw [trim, ← List.reverse_append, hback, List.reverse_reverse]
  have hhead : (s.dropWhile jsSpace).head? = some c := by
    rw [hfront, List.head?_append]
    rw [Option.mem_def] at hc
    rw [hc]
    rfl
  have hnot := List.head?_dropWhile_not jsSpace s
  rw [hhead] at hnot
  exact hnot

theorem dropBreaks_append (cs ds : List Char) : dropBreaks (cs ++ ds) = dropBreaks cs ++ dropBreaks ds :=
  List.filter_append cs ds

theorem head_dropBreaks (h : ∀ c ∈ cs.head?, jsSpace c = false) : (dropBreaks cs).head? = cs.head? := by
  cases cs with
  | nil => rfl
  | cons c cs =>
    have hc : c ≠ '\n' := by
      rintro rfl
      exact Bool.noConfusion (h '\n' rfl)
    have hdrop : dropBreaks (c :: cs) = c :: dropBreaks cs := List.filter_cons_of_pos (decide_eq_true hc)
    rw [hdrop]
    rfl

theorem head_joined (h : ∀ c ∈ cs.head?, jsSpace c = false)
    (hds : joinSemicolons (dropBreaks cs ++ [';']) = ds ++ [';']) :
    ∀ c ∈ (spread (ds ++ [';'])).head?, jsSpace c = false := by
  rw [head_spread, ← hds, head_joinSemicolons, List.head?_append, head_dropBreaks h]
  intro c hc
  cases hcs : cs.head? with
  | none =>
    rw [hcs] at hc
    cases hc
    decide
  | some d =>
    rw [hcs] at hc
    exact h c (hcs ▸ hc)

theorem toList_between (front back : String) (cs : List Char) :
    (front ++ String.ofList cs ++ back).toList = front.toList ++ (cs ++ back.toList) := by
  rw [String.toList_append, String.toList_append, String.toList_ofList, List.append_assoc]

/-- The lines that are written, with the semicolons that are left. -/
theorem toList_directivesBlock {s : String} (hs : s ≠ "")
    (hds : joinSemicolons (dropBreaks (trim s.toList) ++ [';']) = ds ++ [';']) :
    (directivesBlock s).toList = "  #plan`s directives\n  ".toList ++ (spread ds ++ ";\n".toList) := by
  have hbreaks : (trim s.toList ++ [';']).filter (· ≠ '\n') = dropBreaks (trim s.toList) ++ [';'] :=
    dropBreaks_append _ _
  have hline : ";\n".toList = [';'] ++ "\n".toList := rfl
  have htrim : trim ((ds ++ [';']).flatMap fun c => if c = ';' then ";\n    ".toList else [c]) = spread ds ++ [';'] :=
    trim_spread (head_joined (head_trim s.toList) hds)
  have htext : directivesBlock s = "  #plan`s directives\n  " ++ String.ofList (trim
      ((joinSemicolons ((trim s.toList ++ [';']).filter (· ≠ '\n'))).flatMap fun c =>
        if c = ';' then ";\n    ".toList else [c])) ++ "\n" := by
    rw [directivesBlock, if_neg hs]
    rfl
  rw [htext, hbreaks, hds, htrim, toList_between, List.append_assoc, ← hline]

/-- The line of the comment in front is passed over. -/
theorem reads_directivesBlock {s : String} (hs : s ≠ "")
    (hds : joinSemicolons (dropBreaks (trim s.toList) ++ [';']) = ds ++ [';']) :
    Reads (directivesBlock s).toList directives ↔ Reads (spread ds ++ ";\n".toList) directives := by
  have hcomment : start.run "  #plan`s directives\n  ".toList = some start := rfl
  unfold Reads
  rw [toList_directivesBlock hs hds]
  simp only [run_append, hcomment, Option.bind_some]

theorem Reads.lex (h : Reads cs directives) : lex cs = some directives := by
  obtain ⟨q, hrun, hend⟩ := h
  rw [Nginx.lex, hrun, Option.bind_some]
  obtain ⟨mode, quoted, variable_, comment, raw, args, directives⟩ := q
  obtain ⟨rfl, rfl, rfl, rfl, rfl⟩ := hend
  rfl

/-- The block is read as what is left without the line breaks, if all semicolons end directives. -/
theorem reads_of_run {s : String} {q : Lexer} (hs : s ≠ "") (hl : start.Lively (dropBreaks (trim s.toList) ++ [';']))
    (hrun : start.run (dropBreaks (trim s.toList) ++ [';']) = some q) (hend : q.Ended directives) :
    Reads (directivesBlock s).toList directives := by
  obtain ⟨ds, hds⟩ := joinSemicolons_concat (dropBreaks (trim s.toList))
  obtain ⟨hjoin, hl'⟩ := run_joinSemicolons hl hrun
  rw [hds] at hjoin hl'
  rw [run_append] at hjoin
  obtain ⟨q₁, hq₁, hlast⟩ := Option.bind_eq_some_iff.1 hjoin
  have hbreak : q.run "\n".toList = some q := by
    obtain ⟨mode, quoted, variable_, comment, raw, args, directives⟩ := q
    obtain ⟨rfl, rfl, rfl, rfl, rfl⟩ := hend
    rfl
  rw [reads_directivesBlock hs hds]
  refine ⟨q, ?_, hend⟩
  rw [run_append, run_spread hl'.of_append hq₁, Option.bind_some]
  change q₁.run ([';'] ++ "\n".toList) = some q
  rw [run_append, hlast]
  exact hbreak

theorem Waits.step_semicolon {p q : Lexer} {rest : List Char} (h : p = q ∨ Waits p q rest) (hq : q.Live) :
    p.Live ∧ p.step ';' = some q.close.endDirective := by
  rcases h with rfl | h
  · exact ⟨hq, hq.step_semicolon⟩
  · refine ⟨h.live, ?_⟩
    rw [h.close, close_close]
    exact h.live.step_semicolon

/-- Where a text may end, outside of a comment, a semicolon ends a directive. -/
theorem live_of_finish {q : Lexer} (h : q.finish = some directives) (hc : q.comment = false) :
    q.Live ∧ q.close.endDirective.directives = directives := by
  have hlive : q.Live := by
    obtain ⟨mode, quoted, variable_, comment, raw, args, directives⟩ := q
    cases quoted with
    | true => cases h
    | false =>
      refine ⟨rfl, hc, ?_, ?_⟩
      · rintro rfl
        cases h
      · rintro rfl
        cases h
  rw [hlive.finish] at h
  exact ⟨hlive, Option.some.inj h⟩

/-- The last comments go on to the end of the line that is written. -/
theorem Commented.run {q : Lexer} (h : Commented q ('#' :: cs)) (hcs : '\n' ∉ ds) :
    q.run ('#' :: (ds ++ "\n".toList)) = some q := by
  obtain ⟨-, hend, -⟩ := h
  obtain ⟨mode, quoted, variable_, comment, raw, args, directives⟩ := q
  obtain ⟨rfl, rfl, rfl, rfl, -⟩ := hend
  have hstep : Lexer.step ⟨.space, false, variable_, false, raw, [], directives⟩ '#' =
      some ⟨.space, false, variable_, true, raw, [], directives⟩ := rfl
  rw [Lexer.run, hstep, Option.bind_some, run_append, run_comment rfl hcs]
  rfl

theorem joinSemicolons_comment (h : ';' ∉ cs) : joinSemicolons (cs ++ [';']) = cs ++ [';'] := by
  induction cs with
  | nil => rfl
  | cons c cs ih =>
    have hc : c ≠ ';' := fun hc => h (hc ▸ List.mem_cons_self)
    rw [List.cons_append, joinSemicolons, ih fun hm => h (List.mem_cons_of_mem c hm)]
    rintro _ rfl -
    exact hc rfl

theorem not_mem_dropBreaks {c : Char} (h : c ∉ cs) : c ∉ dropBreaks cs := fun hc => h (List.mem_of_mem_filter hc)

theorem break_not_mem_dropBreaks (cs : List Char) : '\n' ∉ dropBreaks cs := by
  intro h
  have hkept : decide ('\n' ≠ '\n') = true := (List.mem_filter.1 h).2
  exact of_decide_eq_true hkept rfl

theorem lex_nil (h : lex [] = some directives) : directives = [] := by
  cases h
  rfl

theorem Kept.reads {s : String} (hlex : lex s.toList = some directives) (h : Kept s.toList) :
    Reads (directivesBlock s).toList directives := by
  by_cases hs : s = ""
  · subst hs
    rw [lex_nil hlex]
    exact ⟨start, rfl, ended_between []⟩
  obtain ⟨htrim, m, rest, q, ht, hrun, hopen, hrest⟩ := h
  rw [← htrim, ht, lex, run_append, hrun, Option.bind_some] at hlex
  obtain ⟨p, hp, hpq, hlively⟩ := hopen.run_dropBreaks (.inl rfl) hrun
  rcases hrest with ⟨rfl, hc⟩ | hcomm
  · obtain ⟨hlive, hdirs⟩ := live_of_finish hlex hc
    obtain ⟨hplive, hstep⟩ := Waits.step_semicolon hpq hlive
    rw [List.append_nil] at ht
    apply reads_of_run (q := q.close.endDirective) hs
    · rw [ht]
      apply hlively.append
      rintro p' hp'
      rw [hp] at hp'
      cases hp'
      exact Lively.cons (fun _ => hplive) fun p' _ => lively_nil p'
    · rw [ht, run_append, hp, Option.bind_some, run, hstep]
      rfl
    · rw [← hdirs]
      exact ended_between _
  · obtain ⟨⟨cs, rfl, hcs⟩, hend, b, hb⟩ := id hcomm
    rcases hpq with rfl | hwait
    · rw [hb] at hlex
      have hdirs : directives = p.directives := by
        obtain ⟨mode, quoted, variable_, comment, raw, args, directives⟩ := p
        obtain ⟨rfl, rfl, rfl, rfl, -⟩ := hend
        exact (Option.some.inj hlex).symm
      have hbreaks : dropBreaks (trim s.toList) ++ [';'] = dropBreaks m ++ (('#' :: dropBreaks cs) ++ [';']) := by
        rw [ht, dropBreaks_append, List.append_assoc]
        rfl
      have hsemi : ';' ∉ '#' :: dropBreaks cs := by
        rw [List.mem_cons, not_or]
        exact ⟨by decide, not_mem_dropBreaks hcs⟩
      have hjoin : joinSemicolons (dropBreaks (trim s.toList) ++ [';']) =
          (joinSemicolons (dropBreaks m) ++ '#' :: dropBreaks cs) ++ [';'] := by
        rw [hbreaks, joinSemicolons_append, joinSemicolons_comment hsemi, List.append_assoc]
        rintro c ⟨⟩
        decide
      obtain ⟨hm, hl⟩ := run_joinSemicolons hlively hp
      rw [reads_directivesBlock hs hjoin, hdirs]
      refine ⟨p, ?_, hend⟩
      have hlast : p.run ('#' :: ((dropBreaks cs ++ [';']) ++ "\n".toList)) = some p := by
        apply hcomm.run
        rw [List.mem_append, not_or]
        exact ⟨break_not_mem_dropBreaks cs, by decide⟩
      rw [spread_append, spread_eq_self hsemi, List.append_assoc, run_append, run_spread hl hm, Option.bind_some]
      rw [List.append_assoc] at hlast
      exact hlast
    · have hfirst := hwait.ends '#' rfl
      exact absurd hfirst (by decide)

end Block

section Words
variable {q q' : Lexer} {cs t : List Char} {w : Bool}

theorem Plain.tail {c : Char} (h : Plain (c :: cs)) : Plain cs := fun d hd => h d (List.mem_cons_of_mem c hd)

theorem Plain.sublist {ds : List Char} (h : Plain ds) (hs : ∀ c ∈ cs, c ∈ ds) : Plain cs :=
  fun c hc => h c (hs c hc)

/-- Within a word of a text without quotes, or between two of them. -/
structure Calm (w : Bool) (q : Lexer) : Prop where
  quoted : q.quoted = false
  comment : q.comment = false
  mode : q.mode = if w then .word else .space

theorem Calm.live (h : Calm w q) : q.Live := by
  refine ⟨h.quoted, h.comment, ?_⟩
  rw [h.mode]
  cases w with
  | true => decide
  | false => decide

/-- How many words have begun. -/
def total (q : Lexer) : Nat := q.directives.flatten.length + q.args.length + if q.mode = .word then 1 else 0

/-- How many words begin in a text, in front of which there is one or none. -/
def wordStarts (w : Bool) : List Char → Nat
  | [] => 0
  | c :: cs => (if wordChar c && !w then 1 else 0) + wordStarts (wordChar c) cs

theorem wordChar_eq_false {c : Char} : wordChar c = false ↔ isSpace c = true ∨ c = ';' := by
  unfold wordChar
  cases isSpace c with
  | true => simp
  | false => simp

theorem flatten_endDirective (q : Lexer) :
    q.endDirective.directives.flatten.length = q.directives.flatten.length + q.args.length := by
  unfold endDirective between
  dsimp only
  split
  · rename_i h
    rw [h]
    rfl
  · rw [List.flatten_append, List.length_append]
    simp

/-- A semicolon leaves the words that have begun. -/
theorem Calm.flatten_close (h : Calm w q) : q.close.endDirective.directives.flatten.length = total q := by
  rw [flatten_endDirective]
  have hmode := h.mode
  cases w with
  | true =>
    rw [if_pos rfl] at hmode
    rw [total, close, hmode, if_pos rfl]
    dsimp only
    rw [endWord]
    dsimp only
    rw [List.length_append]
    rfl
  | false =>
    rw [if_neg Bool.false_ne_true] at hmode
    rw [total, close, hmode, if_neg Mode.noConfusion]
    rfl

/-- Each character that goes on with no word begins one. -/
theorem Calm.step (h : Calm w q) {c : Char} (hc : c ∉ ['"', apostrophe, '\\', '#', '\x7b', '\x7d']) :
    ∃ q', q.step c = some q' ∧ Calm (wordChar c) q' ∧ total q' = total q + if wordChar c && !w then 1 else 0 := by
  by_cases hspace : wordChar c = false
  · rw [hspace]
    have hclosed : Calm false q.close := by
      have hl := live_close h.live
      exact ⟨hl.quoted, hl.comment, q.close_mode⟩
    rcases wordChar_eq_false.1 hspace with hs | rfl
    · refine ⟨q.close, h.live.step_space hs, hclosed, ?_⟩
      rw [← hclosed.flatten_close, close_close, h.flatten_close]
      rfl
    · refine ⟨_, h.live.step_semicolon, ⟨rfl, rfl, rfl⟩, ?_⟩
      rw [← h.flatten_close]
      rfl
  · simp only [List.mem_cons, List.not_mem_nil, or_false, not_or] at hc
    obtain ⟨hdq, hsq, hback, hhash, hopen, hclose⟩ := hc
    rw [Bool.not_eq_false] at hspace
    have hnot : isSpace c = false ∧ c ≠ ';' := by
      rw [wordChar, Bool.and_eq_true, Bool.not_eq_true', decide_eq_true_iff] at hspace
      exact hspace
    rw [hspace]
    have hl := h.live
    obtain ⟨hquoted, hcomment, hmode⟩ := h
    cases w with
    | true =>
      rw [if_pos rfl] at hmode
      rw [hl.step_word hmode, if_neg fun hv => hopen hv.1, inWord, if_neg hback]
      split
      · exact ⟨_, rfl, ⟨hquoted, hcomment, hmode⟩, rfl⟩
      · dsimp only
        rw [hmode]
        dsimp only
        rw [hnot.1, if_neg Bool.false_ne_true, if_neg hnot.2]
        have htotal : total q = q.directives.flatten.length + q.args.length + 1 := by
          rw [total, hmode, if_pos rfl]
        refine ⟨_, rfl, ⟨hquoted, hcomment, rfl⟩, ?_⟩
        rw [htotal]
        rfl
    | false =>
      rw [if_neg Bool.false_ne_true] at hmode
      have hstep : q.step c = q.beginWord c := by
        rw [Lexer.step, hcomment, hquoted, hmode]
        rfl
      have htotal : total q = q.directives.flatten.length + q.args.length := by
        rw [total, hmode, if_neg Mode.noConfusion, Nat.add_zero]
      rw [hstep, beginWord, hnot.1, if_neg Bool.false_ne_true, if_neg hnot.2, if_neg (not_or.2 ⟨hopen, hclose⟩),
        if_neg hhash, if_neg hback, if_neg hdq, if_neg hsq, htotal]
      exact ⟨_, rfl, ⟨hquoted, hcomment, rfl⟩, rfl⟩

/-- A text without quotes is read to its end, with one word for each beginning of one. -/
theorem Calm.run (h : Calm w q) (hcs : Plain cs) :
    ∃ q', q.run cs = some q' ∧ Calm (cs.foldl (fun _ c => wordChar c) w) q' ∧ total q' = total q + wordStarts w cs := by
  induction cs generalizing q w with
  | nil => exact ⟨q, rfl, h, rfl⟩
  | cons c cs ih =>
    obtain ⟨q₁, hs, hq₁, htotal⟩ := h.step (hcs c List.mem_cons_self).1
    obtain ⟨q', hrun, hq', htotal'⟩ := ih hq₁ hcs.tail
    refine ⟨q', ?_, hq', ?_⟩
    · rw [Lexer.run, hs]
      exact hrun
    · rw [htotal', htotal, Nat.add_assoc]
      rfl

theorem calm_start : Calm false start := ⟨rfl, rfl, rfl⟩

theorem Plain.lively (h : Plain cs) : start.Lively cs := by
  rintro a b rfl q hrun
  obtain ⟨q', hrun', hq', -⟩ := calm_start.run (h.sublist fun c hc => List.mem_append_left _ hc)
  rw [hrun] at hrun'
  cases hrun'
  exact hq'.live

theorem Plain.lex_length {directives : List (List (List Char))} (h : Plain t) (hlex : lex t = some directives) :
    directives.flatten.length = wordStarts false t := by
  obtain ⟨q, hrun, hq, htotal⟩ := calm_start.run h
  rw [lex, hrun, Option.bind_some, hq.live.finish] at hlex
  rw [← Option.some.inj hlex, hq.flatten_close, htotal]
  exact Nat.zero_add _

theorem wordStarts_append (a b : List Char) (w : Bool) :
    wordStarts w (a ++ b) = wordStarts w a + wordStarts (a.foldl (fun _ c => wordChar c) w) b := by
  induction a generalizing w with
  | nil => exact (Nat.zero_add _).symm
  | cons c a ih =>
    rw [List.cons_append, wordStarts, wordStarts, ih, List.foldl_cons, Nat.add_assoc]

/-- No word begins because a line break is gone. -/
theorem wordStarts_dropBreaks_le {v : Bool} (h : w = true → v = true) (cs : List Char) :
    wordStarts v (dropBreaks cs) ≤ wordStarts w cs := by
  induction cs generalizing v w with
  | nil => exact Nat.le_refl 0
  | cons c cs ih =>
    by_cases hc : c = '\n'
    · subst hc
      have hdrop : dropBreaks ('\n' :: cs) = dropBreaks cs := List.filter_cons_of_neg (by decide)
      have hstart : wordStarts w ('\n' :: cs) = wordStarts false cs := Nat.zero_add _
      rw [hdrop, hstart]
      exact ih fun hf => absurd hf Bool.false_ne_true
    · have hdrop : dropBreaks (c :: cs) = c :: dropBreaks cs := List.filter_cons_of_pos (decide_eq_true hc)
      rw [hdrop, wordStarts, wordStarts]
      apply Nat.add_le_add
      · cases w with
        | false =>
          rw [Bool.not_false, Bool.and_true]
          split
          · rename_i hv
            rw [if_pos (Bool.and_eq_true_iff.1 hv).1]
          · exact Nat.zero_le _
        | true =>
          rw [h rfl]
      · exact ih id

theorem wordStarts_breaks {breaks : List Char} (hb : ∀ x ∈ breaks, x = '\n') (cs : List Char) :
    wordStarts false (breaks ++ cs) = wordStarts false cs := by
  induction breaks with
  | nil => rfl
  | cons c breaks ih =>
    rw [List.cons_append, hb c List.mem_cons_self]
    exact (Nat.zero_add _).trans (ih fun x hx => hb x (List.mem_cons_of_mem c hx))

/-- Where two words are joined, fewer words are left. -/
theorem Joined.wordStarts_lt (h : Joined t) : wordStarts false (dropBreaks t) < wordStarts false t := by
  obtain ⟨a, c, breaks, d, b, rfl, hc, hd, hne, hb⟩ := h
  have hbreaks : dropBreaks breaks = [] := by
    rw [dropBreaks, List.filter_eq_nil_iff]
    intro x hx
    rw [decide_eq_true_iff]
    exact fun hn => hn (hb x hx)
  have hkeep : ∀ {x : Char} (cs : List Char), wordChar x = true → dropBreaks (x :: cs) = x :: dropBreaks cs := by
    intro x cs hx
    apply List.filter_cons_of_pos
    rw [decide_eq_true_iff]
    rintro rfl
    exact Bool.noConfusion hx
  have hsplit : a ++ c :: (breaks ++ d :: b) = (a ++ [c]) ++ (breaks ++ d :: b) := by
    rw [List.append_assoc]
    rfl
  have hbehind : ∀ a' b' : List Char,
      wordStarts false ((a' ++ [c]) ++ b') = wordStarts false (a' ++ [c]) + wordStarts true b' := by
    intro a' b'
    have hflag : (a' ++ [c]).foldl (fun _ c => wordChar c) false = true := by
      rw [List.foldl_append]
      exact hc
    rw [wordStarts_append, hflag]
  have hleft : dropBreaks (a ++ c :: (breaks ++ d :: b)) = (dropBreaks a ++ [c]) ++ d :: dropBreaks b := by
    rw [hsplit, dropBreaks_append, dropBreaks_append, dropBreaks_append, hbreaks, hkeep b hd, hkeep [] hc]
    rfl
  have hfront : wordStarts false (dropBreaks a ++ [c]) ≤ wordStarts false (a ++ [c]) := by
    have hle := wordStarts_dropBreaks_le (w := false) (v := false) id (a ++ [c])
    rw [dropBreaks_append, hkeep [] hc] at hle
    exact hle
  have hback : wordStarts true (dropBreaks b) ≤ wordStarts true b := wordStarts_dropBreaks_le id b
  have hlost : wordStarts true (breaks ++ d :: b) = 1 + wordStarts true b := by
    cases breaks with
    | nil => exact absurd rfl hne
    | cons x breaks =>
      rw [List.cons_append, hb x List.mem_cons_self]
      refine (Nat.zero_add _).trans ((wordStarts_breaks (fun y hy => hb y (List.mem_cons_of_mem x hy)) _).trans ?_)
      rw [wordStarts, hd]
      rfl
  have hgone : wordStarts true (d :: dropBreaks b) = wordStarts true (dropBreaks b) := by
    rw [wordStarts, hd]
    exact Nat.zero_add _
  rw [hleft, hsplit, hbehind, hbehind, hlost, hgone]
  omega

/-- What is trimmed is white space. -/
theorem trim_split (s : List Char) :
    ∃ front back, s = front ++ (trim s ++ back) ∧ (∀ c ∈ front, jsSpace c = true) ∧ ∀ c ∈ back, jsSpace c = true := by
  refine ⟨s.takeWhile jsSpace, ((s.dropWhile jsSpace).reverse.takeWhile jsSpace).reverse, ?_, ?_, ?_⟩
  · rw [trim, ← List.reverse_append, List.takeWhile_append_dropWhile, List.reverse_reverse,
      List.takeWhile_append_dropWhile]
  · intro c hc
    exact List.mem_takeWhile_imp hc
  · intro c hc
    exact List.mem_takeWhile_imp (List.mem_reverse.1 hc)

/-- White space in front of a text and behind it has no meaning. -/
theorem Plain.lex_trim {s : List Char} (h : Plain s) : Plain (trim s) ∧ lex (trim s) = lex s := by
  obtain ⟨front, back, hs, hfront, hback⟩ := trim_split s
  have hmem : ∀ c, c ∈ front ∨ c ∈ trim s ∨ c ∈ back → c ∈ s := by
    intro c hc
    rw [hs, List.mem_append, List.mem_append]
    exact hc
  have htrim : Plain (trim s) := h.sublist fun c hc => hmem c (.inr (.inl hc))
  refine ⟨htrim, ?_⟩
  obtain ⟨q, hrun, hq, -⟩ := calm_start.run htrim
  have hfront' : start.run front = some start := by
    apply (live_between []).run_spaces rfl
    intro c hc
    exact (h c (hmem c (.inl hc))).2 (hfront c hc)
  have hback' : ∀ c ∈ back, isSpace c = true := by
    intro c hc
    exact (h c (hmem c (.inr (.inr hc)))).2 (hback c hc)
  have hend : (q.run back).bind finish = q.finish := by
    cases back with
    | nil => rfl
    | cons c back =>
      have hclosed := live_close hq.live
      rw [Lexer.run, hq.live.step_space (hback' c List.mem_cons_self), Option.bind_some,
        hclosed.run_spaces q.close_mode fun d hd => hback' d (List.mem_cons_of_mem c hd), Option.bind_some,
        hclosed.finish, close_close, hq.live.finish]
  conv_rhs => rw [hs]
  rw [lex, lex, run_append, hfront', Option.bind_some, run_append, hrun, Option.bind_some, Option.bind_some, hend]

/-- Where no words are joined, a line break ends no word that goes on behind it. -/
theorem Plain.opens (h : Plain t) (hj : ¬Joined t) {a cs : List Char} (ht : t = a ++ cs) (hrun : start.run a = some q) :
    Open q cs [] := by
  induction cs generalizing a q with
  | nil => exact .nil q []
  | cons c cs ih =>
    have hmem : ∀ d, d ∈ a ∨ d ∈ c :: cs → d ∈ t := by
      intro d hd
      rw [ht]
      exact List.mem_append.2 hd
    obtain ⟨q₁, hq₁, hcalm, -⟩ := calm_start.run (h.sublist fun d hd => hmem d (.inl hd))
    rw [hrun] at hq₁
    cases hq₁
    obtain ⟨q', hs, -, -⟩ := hcalm.step (h c (hmem c (.inr List.mem_cons_self))).1
    have hrest : Open q' cs [] := by
      apply ih (a := a ++ [c])
      · rw [ht, List.append_assoc]
        rfl
      · rw [run_append, hrun, Option.bind_some, Lexer.run, hs]
        rfl
    refine Open.step q c cs [] (fun hc => ⟨hcalm.live, fun hm => ?_⟩) (fun _ => hcalm.live) hs hrest
    subst hc
    rw [List.append_nil]
    intro d hd
    by_contra hno
    have hword : wordChar d = true := by
      rw [← Bool.not_eq_false, wordChar_eq_false]
      exact hno
    rcases List.eq_nil_or_concat a with rfl | ⟨a, x, hax⟩
    · exact hm hcalm.mode
    · rw [List.concat_eq_append] at hax
      subst hax
      have hx : wordChar x = true := by
        by_contra hx
        have hmode := hcalm.mode
        rw [List.foldl_append, List.foldl_cons, List.foldl_nil, if_neg hx] at hmode
        exact hm hmode
      obtain ⟨b, hb⟩ := List.head?_eq_some_iff.1 hd
      have hsplit := List.takeWhile_append_dropWhile (p := fun c => decide (c = '\n')) (l := cs)
      rw [hb] at hsplit
      apply hj
      refine ⟨a, x, '\n' :: cs.takeWhile fun c => decide (c = '\n'), d, b, ?_, hx, hword, List.cons_ne_nil _ _, ?_⟩
      · rw [ht, List.cons_append, hsplit, List.append_assoc]
        rfl
      · intro y hy
        rcases List.mem_cons.1 hy with rfl | hy
        · rfl
        · have hbreak := List.mem_takeWhile_imp hy
          exact of_decide_eq_true hbreak

/-- Words that only line breaks stand between are one word in the block. -/
theorem Plain.lex_iff {s : String} {directives : List (List (List Char))} (h : Plain s.toList)
    (hlex : lex s.toList = some directives) :
    lex (directivesBlock s).toList = some directives ↔ ¬Joined (trim s.toList) := by
  obtain ⟨htrim, hsame⟩ := h.lex_trim
  constructor
  · intro hblock hj
    have hs : s ≠ "" := by
      rintro rfl
      obtain ⟨a, c, breaks, d, b, hj, -⟩ := hj
      have hnil : trim "".toList = [] := rfl
      rw [hnil] at hj
      cases a <;> cases hj
    have hdrop : Plain (dropBreaks (trim s.toList)) := htrim.sublist fun c hc => List.mem_of_mem_filter hc
    obtain ⟨q, hrun, hq, htotal⟩ := calm_start.run hdrop
    have hstep := hq.live.step_semicolon
    have hlast : start.run (dropBreaks (trim s.toList) ++ [';']) = some q.close.endDirective := by
      rw [run_append, hrun, Option.bind_some, Lexer.run, hstep]
      rfl
    have hl : start.Lively (dropBreaks (trim s.toList) ++ [';']) := by
      apply hdrop.lively.append
      rintro q' hq'
      rw [hrun] at hq'
      cases hq'
      exact Lively.cons (fun _ => hq.live) fun q' _ => lively_nil q'
    have hend : q.close.endDirective.Ended q.close.endDirective.directives := ended_between _
    rw [(reads_of_run hs hl hlast hend).lex] at hblock
    have hcount := htrim.lex_length (hsame.trans hlex)
    have hfewer : q.close.endDirective.directives.flatten.length = wordStarts false (dropBreaks (trim s.toList)) := by
      rw [hq.flatten_close, htotal]
      exact Nat.zero_add _
    have hlt := hj.wordStarts_lt
    rw [← Option.some.inj hblock, hfewer] at hcount
    exact absurd hcount hlt.ne
  · intro hj
    obtain ⟨q, hrun, hq, -⟩ := calm_start.run htrim
    apply Reads.lex
    apply Kept.reads hlex
    refine ⟨hsame, trim s.toList, [], q, (List.append_nil _).symm, hrun, ?_, .inl ⟨rfl, hq.comment⟩⟩
    exact htrim.opens hj (a := []) rfl rfl

end Words

/-- The block has the directives of the text where no line break joins words and no quotes or comments are cut;
without quotes, comments and escapes, exactly there. -/
theorem directives_kept {s : String} {directives : List (List (List Char))} (hlex : lex s.toList = some directives) :
    (Kept s.toList → Reads (directivesBlock s).toList directives ∧ lex (directivesBlock s).toList = some directives) ∧
      (Plain s.toList → (lex (directivesBlock s).toList = some directives ↔ ¬Joined (trim s.toList))) :=
  ⟨fun h => ⟨h.reads hlex, (h.reads hlex).lex⟩, fun h => h.lex_iff hlex⟩

/-- A quoted word is kept, and two words with a line break between them are joined. -/
theorem directives_kept_sample :
    lex (directivesBlock "alias \"a b\"").toList = some [["alias".toList, "a b".toList]] ∧
      lex (directivesBlock "gzip\non;").toList ≠ some [["gzip".toList, "on".toList]] := by
  have hquoted : lex "alias \"a b\"".toList = some [["alias".toList, "a b".toList]] := rfl
  have hbreak : lex "gzip\non;".toList = some [["gzip".toList, "on".toList]] := rfl
  constructor
  · refine ((directives_kept hquoted).1 ⟨rfl, "alias \"a b\"".toList, [], _, rfl, rfl, ?_, .inl ⟨rfl, rfl⟩⟩).2
    exact open_of_not_mem (by simp) (by simp) rfl
  · intro hblock
    have hplain : Plain ['g', 'z', 'i', 'p', '\n', 'o', 'n', ';'] := by
      intro c hc
      simp only [List.mem_cons, List.not_mem_nil, or_false] at hc
      rcases hc with rfl | rfl | rfl | rfl | rfl | rfl | rfl | rfl <;> decide
    apply ((directives_kept hbreak).2 hplain).1 hblock
    refine ⟨['g', 'z', 'i'], 'p', ['\n'], 'o', ['n', ';'], rfl, rfl, rfl, List.cons_ne_nil _ _, ?_⟩
    intro x hx
    exact List.mem_singleton.1 hx

/-- A line break between the words of a directive makes one word of them. -/
theorem words_joined :
    ¬∀ s directives, lex s.toList = some directives → lex (directivesBlock s).toList = some directives := by
  intro h
  have hlex : lex "gzip\non;".toList = some [["gzip".toList, "on".toList]] := rfl
  have hblock : lex (directivesBlock "gzip\non;").toList = some [["gzipon".toList]] := rfl
  have hsame := h "gzip\non;" _ hlex
  rw [hblock] at hsame
  exact absurd hsame (by decide)

end Directives
end JXPanel

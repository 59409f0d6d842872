import Mathlib

set_option autoImplicit true

/-! Paths as moves in a tree of names, and as text with slashes. -/

namespace Paths

/-- What one component of a path does. -/
inductive Move (α : Type)
  | stay
  | up
  | into (name : α)
deriving DecidableEq

section Moves
variable {α : Type}

/-- A place is the list of the names from the root down to it; nothing is above the root. -/
def step (place : List α) : Move α → List α
  | .stay => place
  | .up => place.dropLast
  | .into name => place ++ [name]

def walk (place : List α) (moves : List (Move α)) : List α := moves.foldl step place

/-- What a path comes to wherever it starts: so many places up and then down through names. -/
structure Offset (α : Type) where
  ups : Nat
  down : List α

namespace Offset

def step (o : Offset α) : Move α → Offset α
  | .stay => o
  | .up =>
    match o.down with
    | [] => ⟨o.ups + 1, []⟩
    | a :: l => ⟨o.ups, (a :: l).dropLast⟩
  | .into name => ⟨o.ups, o.down ++ [name]⟩

/-- Where an offset leads from a place. -/
def place (o : Offset α) (start : List α) : List α := start.take (start.length - o.ups) ++ o.down

theorem place_step (o : Offset α) (start : List α) (m : Move α) :
    Paths.step (o.place start) m = (o.step m).place start := by
  cases m with
  | stay => rfl
  | into name => exact List.append_assoc _ _ _
  | up =>
    unfold Paths.step Offset.step place
    cases hd : o.down with
    | nil =>
      simp only [List.append_nil, List.dropLast_eq_take, List.take_take, List.length_take]
      congr 1
      omega
    | cons a l => exact List.dropLast_append_of_ne_nil (List.cons_ne_nil a l)

/-- The offset of a sequence of moves. -/
def of (moves : List (Move α)) : Offset α := moves.foldl Offset.step ⟨0, []⟩

end Offset

theorem walk_append (start : List α) (l r : List (Move α)) :
    walk start (l ++ r) = walk (walk start l) r := List.foldl_append

/-- A walk depends on where it starts only through the offset of its moves. -/
theorem walk_eq_place (start : List α) (moves : List (Move α)) :
    walk start moves = (Offset.of moves).place start := by
  have hstart : (⟨0, []⟩ : Offset α).place start = start := by simp [Offset.place]
  have hrun : ∀ (o : Offset α), walk (o.place start) moves =
      (moves.foldl Offset.step o).place start := by
    induction moves with
    | nil => exact fun o => rfl
    | cons m ms ih =>
      intro o
      rw [walk, List.foldl_cons, Offset.place_step, List.foldl_cons]
      exact ih (o.step m)
  have h := hrun ⟨0, []⟩
  rwa [hstart] at h

/-- An offset that comes back down the way it went up. -/
def Offset.Returns (o : Offset α) (start : List α) : Prop :=
  start.drop (start.length - o.ups) <+: o.down

/-- A walk ends at or below its start just when it comes back down the way it went up. -/
theorem prefix_walk_iff (start : List α) (moves : List (Move α)) :
    start <+: walk start moves ↔ (Offset.of moves).Returns start := by
  rw [walk_eq_place, Offset.place, Offset.Returns]
  conv =>
    lhs
    lhs
    rw [← List.take_append_drop (start.length - (Offset.of moves).ups) start]
  exact List.prefix_append_right_inj _

theorem Offset.returns_of_ups (o : Offset α) (h : o.ups = 0) (start : List α) : o.Returns start := by
  rw [Returns, h, Nat.sub_zero, List.drop_length]
  exact List.nil_prefix

/-- Moves that never go up lead nowhere but down. -/
theorem Offset.ups_of_no_up (moves : List (Move α)) (h : Move.up ∉ moves) :
    (Offset.of moves).ups = 0 := by
  have hrun : ∀ o : Offset α, (moves.foldl Offset.step o).ups = o.ups := by
    induction moves with
    | nil => exact fun o => rfl
    | cons m ms ih =>
      intro o
      have hms : Move.up ∉ ms := fun hm => h (List.mem_cons_of_mem _ hm)
      rw [List.foldl_cons, ih hms]
      cases m with
      | stay => rfl
      | into name => rfl
      | up => exact absurd List.mem_cons_self h
  exact hrun ⟨0, []⟩

end Moves

section Text

/-- The move that a component of a path's text stands for. -/
def moveOf (name : List Char) : Move (List Char) :=
  if name = [] ∨ name = ['.'] then .stay
  else if name = ['.', '.'] then .up
  else .into name

def moves (text : List Char) : List (Move (List Char)) := (text.splitOn '/').map moveOf

/-- The place that the text of an absolute path denotes once it is normalised. -/
def place (text : List Char) : List (List Char) := walk [] (moves text)

/-- The place that a text denotes for a process whose working directory is given. -/
def resolve (cwd text : List Char) : List (List Char) :=
  if text.head? = some '/' then place text else walk (place cwd) (moves text)

/-- A path that is a directory or lies below it. -/
def Inside (dir path : List Char) : Prop := place dir <+: place path

instance (dir path : List Char) : Decidable (Inside dir path) := inferInstanceAs (Decidable (place dir <+: place path))

theorem moves_join (a b : List Char) : moves (a ++ '/' :: b) = moves a ++ moves b := by
  rw [moves, List.splitOn_append_cons_self, List.map_append]
  rfl

theorem place_join (a b : List Char) : place (a ++ '/' :: b) = walk (place a) (moves b) := by
  rw [place, moves_join, walk_append]
  rfl

theorem inside_self (dir : List Char) : Inside dir dir := List.prefix_rfl

/-- A text put behind a directory stays inside just when it comes back the way it went up. -/
theorem inside_join_iff (dir text : List Char) :
    Inside dir (dir ++ '/' :: text) ↔ (Offset.of (moves text)).Returns (place dir) := by
  rw [Inside, place_join]
  exact prefix_walk_iff _ _

theorem infix_of_mem_splitOn {l x : List Char} {c : Char} (h : x ∈ l.splitOn c) : x <:+: l := by
  have hall : ∀ (ls : List (List Char)), x ∈ ls → x <:+: [c].intercalate ls := by
    intro ls
    induction ls with
    | nil => exact fun hm => absurd hm List.not_mem_nil
    | cons y ys ih =>
      intro hm
      cases ys with
      | nil =>
        rw [List.mem_singleton.1 hm, List.intercalate_singleton]
      | cons z zs =>
        rw [List.intercalate_cons_cons]
        rcases List.mem_cons.1 hm with rfl | hm
        · exact ⟨[], [c] ++ [c].intercalate (z :: zs), by simp⟩
        · exact (ih hm).trans (List.suffix_append _ _).isInfix
  have hx := hall _ h
  rwa [List.intercalate_splitOn] at hx

/-- A text without two dots in a row never goes up. -/
theorem no_up_of_no_dots {text : List Char} (h : ¬ ['.', '.'] <:+: text) :
    Move.up ∉ moves text := by
  intro hm
  obtain ⟨name, hname, hup⟩ := List.mem_map.1 hm
  unfold moveOf at hup
  split at hup
  · cases hup
  · split at hup
    · rename_i he
      exact h (he ▸ infix_of_mem_splitOn hname)
    · cases hup

/-- What is between two separators begins the text or stands behind one of them. -/
theorem splitOn_behind {l x : List Char} {c : Char} {xs : List (List Char)} (h : l.splitOn c = x :: xs) :
    x <+: l ∧ ∀ y ∈ xs, c :: y <:+: l := by
  induction l generalizing x xs with
  | nil =>
    rw [List.splitOn_nil] at h
    cases h
    exact ⟨List.nil_prefix, fun y hy => absurd hy List.not_mem_nil⟩
  | cons a l ih =>
    obtain ⟨y, ys, hl⟩ := List.exists_cons_of_ne_nil (List.splitOn_ne_nil c l)
    obtain ⟨hy, hys⟩ := ih hl
    rw [List.splitOn_cons_eq_if_modifyHead, hl] at h
    by_cases hac : a = c
    · rw [if_pos (by simpa using hac)] at h
      cases h
      refine ⟨List.nil_prefix, fun z hz => ?_⟩
      rcases List.mem_cons.1 hz with rfl | hz
      · exact (List.cons_prefix_cons.2 ⟨hac.symm, hy⟩).isInfix
      · exact List.infix_cons (hys z hz)
    · rw [if_neg (by simpa using hac)] at h
      cases h
      exact ⟨List.cons_prefix_cons.2 ⟨rfl, hy⟩, fun z hz => List.infix_cons (hys z hz)⟩

/-- A text that does not begin with two dots and has no dot behind a slash never goes up. -/
theorem no_up_of_no_dot_behind {text : List Char} (hstart : ¬ ['.', '.'] <+: text)
    (hbehind : ¬ ['/', '.'] <:+: text) : Move.up ∉ moves text := by
  intro hm
  obtain ⟨name, hname, hup⟩ := List.mem_map.1 hm
  have hdots : name = ['.', '.'] := by
    unfold moveOf at hup
    split at hup
    · cases hup
    · split at hup
      · assumption
      · cases hup
  subst hdots
  obtain ⟨x, xs, hsplit⟩ := List.exists_cons_of_ne_nil (List.splitOn_ne_nil '/' text)
  obtain ⟨hfirst, hrest⟩ := splitOn_behind hsplit
  rw [hsplit] at hname
  rcases List.mem_cons.1 hname with rfl | hname
  · exact hstart hfirst
  · have hshort : ['/', '.'] <:+: ['/', '.', '.'] := ⟨[], ['.'], rfl⟩
    exact hbehind (hshort.trans (hrest _ hname))

theorem inside_join_of_no_up (dir : List Char) {text : List Char} (h : Move.up ∉ moves text) :
    Inside dir (dir ++ '/' :: text) := by
  rw [inside_join_iff]
  exact Offset.returns_of_ups _ (Offset.ups_of_no_up _ h) _

/-- The names in a text, without what stands for nothing between two slashes. -/
def pieces (text : List Char) : List (List Char) := (text.splitOn '/').filter (· ≠ [])

theorem pieces_nil : pieces [] = [] := by
  rw [pieces, List.splitOn_nil]
  rfl

theorem pieces_join (a b : List Char) : pieces (a ++ '/' :: b) = pieces a ++ pieces b := by
  rw [pieces, List.splitOn_append_cons_self, List.filter_append]
  rfl

theorem pieces_intercalate (names : List (List Char)) :
    pieces (['/'].intercalate names) = names.flatMap pieces := by
  induction names with
  | nil => exact pieces_nil
  | cons a names ih =>
    cases names with
    | nil => rw [List.intercalate_singleton, List.flatMap_singleton]
    | cons b names =>
      rw [List.intercalate_cons_cons, List.append_assoc, List.singleton_append, pieces_join, ih]
      rfl

theorem pieces_of_plain {name : List Char} (hne : name ≠ []) (hs : '/' ∉ name) :
    pieces name = [name] := by
  rw [pieces, List.splitOn_eq_singleton hs]
  exact List.filter_cons_of_pos (p := fun name : List Char => decide (name ≠ [])) (decide_eq_true hne)

/-- A text without dots leads down through its names. -/
theorem walk_pieces (start : List (List Char)) {text : List Char} (h : '.' ∉ text) :
    walk start (moves text) = start ++ pieces text := by
  have hdots : ∀ name ∈ text.splitOn '/', '.' ∉ name := by
    intro name hname hdot
    exact h ((infix_of_mem_splitOn hname).subset hdot)
  rw [moves, pieces]
  generalize text.splitOn '/' = names at hdots
  induction names generalizing start with
  | nil => exact (List.append_nil start).symm
  | cons name names ih =>
    have hrest : ∀ b ∈ names, '.' ∉ b := fun b hb => hdots b (List.mem_cons_of_mem _ hb)
    have hname := hdots name List.mem_cons_self
    rw [List.map_cons, walk, List.foldl_cons]
    by_cases hnil : name = []
    · subst hnil
      exact ih start hrest
    · have hmove : moveOf name = .into name := by
        have hdot : name ≠ ['.'] := by
          rintro rfl
          exact hname List.mem_cons_self
        have hup : name ≠ ['.', '.'] := by
          rintro rfl
          exact hname List.mem_cons_self
        rw [moveOf, if_neg, if_neg hup]
        rintro (he | he)
        · exact hnil he
        · exact hdot he
      rw [hmove, List.filter_cons, if_pos (decide_eq_true hnil), List.append_cons]
      exact ih (start ++ [name]) hrest

theorem flatten_splitOn (text : List Char) : (text.splitOn '/').flatten = text.filter fun c => decide (c ≠ '/') := by
  induction text with
  | nil => rfl
  | cons a text ih =>
    obtain ⟨x, xs, hsplit⟩ := List.exists_cons_of_ne_nil (List.splitOn_ne_nil '/' text)
    rw [hsplit] at ih
    rw [List.splitOn_cons_eq_if_modifyHead, hsplit, List.filter_cons]
    by_cases ha : a = '/'
    · rw [if_pos (by simpa using ha), if_neg (by simpa using ha)]
      exact ih
    · rw [if_neg (by simpa using ha), if_pos (by simpa using ha)]
      exact congrArg (a :: ·) ih

/-- The names hold all that is no slash. -/
theorem flatten_pieces (text : List Char) : (pieces text).flatten = text.filter fun c => decide (c ≠ '/') := by
  rw [← flatten_splitOn, pieces, List.flatten_filter_ne_nil]

theorem pieces_eq_nil_iff {text : List Char} : pieces text = [] ↔ ∀ c ∈ text, c = '/' := by
  constructor
  · intro h c hc
    have hnone := flatten_pieces text
    rw [h, List.flatten_nil, eq_comm, List.filter_eq_nil_iff] at hnone
    simpa using hnone c hc
  · intro h
    by_contra hne
    obtain ⟨name, names, hp⟩ := List.exists_cons_of_ne_nil hne
    have hname : name ≠ [] := by
      have hm : name ∈ pieces text := hp ▸ List.mem_cons_self
      exact of_decide_eq_true (List.mem_filter.1 hm).2
    have hnone : text.filter (fun c => decide (c ≠ '/')) = [] := by
      apply List.filter_eq_nil_iff.2
      intro c hc
      simpa using h c hc
    rw [← flatten_pieces, hp, List.flatten_cons] at hnone
    exact hname (List.append_eq_nil_iff.1 hnone).1

/-- A text that begins with no slash is of one name just when nothing but slashes is behind a slash. -/
theorem pieces_one_iff {text : List Char} (h : ∃ c, text.head? = some c ∧ c ≠ '/') :
    (∃ name, pieces text = [name]) ↔ ∀ c ∈ text.dropWhile (fun c => decide (c ≠ '/')), c = '/' := by
  obtain ⟨c₀, hhead, hc₀⟩ := h
  have hsplit := List.takeWhile_append_dropWhile (p := fun c => decide (c ≠ '/')) (l := text)
  have hfirst : '/' ∉ text.takeWhile fun c => decide (c ≠ '/') := by
    intro hm
    have hkept := List.mem_takeWhile_imp hm
    simp at hkept
  have hne : text.takeWhile (fun c => decide (c ≠ '/')) ≠ [] := by
    cases text with
    | nil => cases hhead
    | cons c text =>
      cases hhead
      rw [List.takeWhile_cons_of_pos (by simpa using hc₀)]
      exact List.cons_ne_nil _ _
  generalize hl : text.takeWhile (fun c => decide (c ≠ '/')) = l at hsplit hfirst hne
  generalize hr : text.dropWhile (fun c => decide (c ≠ '/')) = r at hsplit
  subst hsplit
  cases r with
  | nil =>
    rw [List.append_nil]
    exact iff_of_true ⟨l, pieces_of_plain hne hfirst⟩ fun c hc => absurd hc List.not_mem_nil
  | cons c r =>
    have hc : c = '/' := by
      have hstop := List.head?_dropWhile_not (fun c => decide (c ≠ '/')) (l ++ c :: r)
      rw [hr] at hstop
      exact not_not.1 (of_decide_eq_false hstop)
    subst hc
    rw [pieces_join, pieces_of_plain hne hfirst, List.forall_mem_cons]
    constructor
    · rintro ⟨name, hname⟩
      have hrest : pieces r = [] := (List.cons.inj hname).2
      exact ⟨rfl, pieces_eq_nil_iff.1 hrest⟩
    · rintro ⟨-, hrest⟩
      rw [pieces_eq_nil_iff.2 hrest]
      exact ⟨l, rfl⟩

end Text

section Normal

/-- A name that a path goes down through. -/
structure IsName (name : List Char) : Prop where
  move : moveOf name = .into name
  slash : '/' ∉ name

theorem slash_not_mem_splitOn {text name : List Char} (h : name ∈ text.splitOn '/') : '/' ∉ name := by
  induction text generalizing name with
  | nil =>
    rw [List.splitOn_nil] at h
    rw [List.mem_singleton.1 h]
    exact List.not_mem_nil
  | cons a text ih =>
    obtain ⟨x, xs, hsplit⟩ := List.exists_cons_of_ne_nil (List.splitOn_ne_nil '/' text)
    have hx : '/' ∉ x := ih (hsplit ▸ List.mem_cons_self)
    have hxs : ∀ y ∈ xs, '/' ∉ y := fun y hy => ih (hsplit ▸ List.mem_cons_of_mem x hy)
    rw [List.splitOn_cons_eq_if_modifyHead, hsplit] at h
    by_cases ha : a = '/'
    · rw [if_pos (by simpa using ha)] at h
      rcases List.mem_cons.1 h with rfl | h
      · exact List.not_mem_nil
      · rcases List.mem_cons.1 h with rfl | h
        · exact hx
        · exact hxs _ h
    · rw [if_neg (by simpa using ha)] at h
      rcases List.mem_cons.1 h with rfl | h
      · rw [List.mem_cons, not_or]
        exact ⟨Ne.symm ha, hx⟩
      · exact hxs _ h

theorem isName_of_into {text name : List Char} (h : Move.into name ∈ moves text) : IsName name := by
  obtain ⟨x, hx, he⟩ := List.mem_map.1 h
  have hself : x = name := by
    unfold moveOf at he
    split at he
    · cases he
    · split at he
      · cases he
      · exact Move.into.inj he
  subst hself
  exact ⟨he, slash_not_mem_splitOn hx⟩

theorem mem_walk {α : Type} {start : List α} {ms : List (Move α)} {name : α} (h : name ∈ walk start ms) :
    name ∈ start ∨ Move.into name ∈ ms := by
  induction ms generalizing start with
  | nil => exact .inl h
  | cons m ms ih =>
    rcases ih h with hstep | hms
    · cases m with
      | stay => exact .inl hstep
      | up => exact .inl (List.mem_of_mem_dropLast hstep)
      | into name' =>
        rcases List.mem_append.1 hstep with hs | hs
        · exact .inl hs
        · rw [List.mem_singleton.1 hs]
          exact .inr List.mem_cons_self
    · exact .inr (List.mem_cons_of_mem m hms)

theorem isName_of_place {text name : List Char} (h : name ∈ place text) : IsName name :=
  isName_of_into ((mem_walk h).resolve_left List.not_mem_nil)

theorem walk_names {start names : List (List Char)} (h : ∀ n ∈ names, IsName n) :
    walk start (names.map moveOf) = start ++ names := by
  induction names generalizing start with
  | nil => exact (List.append_nil start).symm
  | cons n names ih =>
    rw [List.map_cons, (h n List.mem_cons_self).move, walk, List.foldl_cons]
    rw [List.append_cons]
    exact ih fun m hm => h m (List.mem_cons_of_mem n hm)

/-- The text of a place leads to it. -/
theorem place_intercalate {names : List (List Char)} (h : ∀ n ∈ names, IsName n) :
    place ('/' :: ['/'].intercalate names) = names := by
  have hroot : place ('/' :: ['/'].intercalate names) = walk [] (moves (['/'].intercalate names)) :=
    place_join [] _
  rw [hroot]
  by_cases hnil : names = []
  · subst hnil
    rfl
  · rw [moves, List.splitOn_intercalate '/' (fun n hn => (h n hn).slash) hnil]
    exact walk_names h

theorem place_slash (text : List Char) : place (text ++ ['/']) = place text := place_join text []

def isAbsolute (text : List Char) : Bool := decide (text.head? = some '/')

/-- The names that a normalised text is made of. A relative one keeps the ups that it begins with. -/
def normalParts (text : List Char) : List (List Char) :=
  if isAbsolute text then place text
  else List.replicate (Offset.of (moves text)).ups ['.', '.'] ++ (Offset.of (moves text)).down

/-- `path.normalize`, for paths with slashes. -/
def normalize (text : List Char) : List Char :=
  let path := ['/'].intercalate (normalParts text)
  let path := if path = [] ∧ isAbsolute text = false then ['.'] else path
  let path := if path ≠ [] ∧ text.getLast? = some '/' then path ++ ['/'] else path
  if isAbsolute text then '/' :: path else path

/-- `path.join` of two texts. -/
def join (a b : List Char) : List Char := normalize (['/'].intercalate ([a, b].filter fun t => decide (t ≠ [])))

example : join "/srv/a/".toList "x//./b/../c/".toList = "/srv/a/x/c/".toList := by decide +kernel

theorem normalize_absolute {text : List Char} (h : isAbsolute text = true) :
    isAbsolute (normalize text) = true ∧ place (normalize text) = place text := by
  have hparts : normalParts text = place text := if_pos h
  have hplace : place ('/' :: ['/'].intercalate (place text)) = place text :=
    place_intercalate fun n hn => isName_of_place hn
  have hrelative : ¬(['/'].intercalate (place text) = [] ∧ isAbsolute text = false) := by
    rintro ⟨-, hr⟩
    rw [h] at hr
    cases hr
  unfold normalize
  dsimp only
  rw [hparts, if_pos h, if_neg hrelative]
  refine ⟨rfl, ?_⟩
  split
  · rw [← List.cons_append, place_slash]
    exact hplace
  · exact hplace

/-- A join is absolute where its first text is, and leads where the second one leads from there. -/
theorem join_absolute {dir : List Char} (h : isAbsolute dir = true) (text : List Char) :
    isAbsolute (join dir text) = true ∧ place (join dir text) = walk (place dir) (moves text) := by
  have hne : dir ≠ [] := by
    rintro rfl
    cases h
  by_cases ht : text = []
  · subst ht
    have hself : join dir [] = normalize dir := by
      unfold join
      simp [hne]
    rw [hself]
    exact normalize_absolute h
  · have hboth : join dir text = normalize (dir ++ '/' :: text) := by
      unfold join
      simp [hne, ht, List.intercalate_cons_cons]
    have hlong : isAbsolute (dir ++ '/' :: text) = true := by
      cases dir with
      | nil => exact absurd rfl hne
      | cons c dir => exact h
    rw [hboth, ← place_join]
    exact normalize_absolute hlong

/-- What is joined to a directory stays in it where it never goes up. -/
theorem inside_join {dir text : List Char} (h : isAbsolute dir = true) (hup : Move.up ∉ moves text) :
    isAbsolute (join dir text) = true ∧ Inside dir (join dir text) := by
  obtain ⟨habs, hplace⟩ := join_absolute h text
  refine ⟨habs, ?_⟩
  rw [Inside, hplace, ← place_join]
  exact inside_join_of_no_up dir hup

end Normal
end Paths

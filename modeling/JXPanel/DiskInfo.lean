import JXPanel.NginxConf

namespace JXPanel
set_option autoImplicit true

abbrev Cell := List Char

/-- The arrays of a converted output, under the headings of their columns. -/
abbrev Columns := Dict Cell (List Cell)

def isCellChar (c : Char) : Bool := c.isAlphanum || decide (c ∈ ['#', '%', '/', '.', ':', '+', '_', '-'])

/-- The cells that are matched in a line. In the rows below the headings a cell may go on with a space
and letters. -/
def cells (more : Bool) : Nat → List Char → List Cell
  | 0, _ => []
  | n + 1, cs =>
    match cs.dropWhile fun c => !isCellChar c with
    | [] => []
    | c :: rest =>
      let run := (c :: rest).takeWhile isCellChar
      match more, (c :: rest).dropWhile isCellChar with
      | true, ' ' :: behind => (run ++ ' ' :: behind.takeWhile Char.isAlpha) :: cells more n (behind.dropWhile Char.isAlpha)
      | _, behind => run :: cells more n behind

example : cells true 30 "map -hosts 0bi  /net".toList = ["map ".toList, "-hosts ".toList, "0bi ".toList, "/net".toList] := by
  decide +kernel

def spaceTabs : List Char → List Char
  | '\\' :: 't' :: cs => ' ' :: spaceTabs cs
  | c :: cs => c :: spaceTabs cs
  | [] => []

/-- The cells of a line that is not left out. -/
def columns (expects : Nat) (more : Bool) (line : List Char) : Option (List Cell) :=
  let line := spaceTabs line
  let cols := cells more line.length line
  if cols = [] ∨ cols.length < expects then none else some cols

structure Table where
  obj : Columns
  dict : List Cell
  n : Nat

def headingAt (dict : List Cell) (o : Nat) : Cell := (dict[o]?).getD "undefined".toList

namespace Table

def start : Table := ⟨.empty, [], 0⟩

def withHeadings (t : Table) (cols : List Cell) : Table :=
  { obj := cols.foldl (fun obj c => obj.set (trim c) []) t.obj, dict := cols.map trim, n := t.n + 1 }

/-- What the loop over a row leaves of it, and the values for the arrays. The loop gives up at the first
column that has no array. -/
def rowBack (t : Table) (cols : List Cell) : List Cell × List Cell :=
  match (List.range cols.length).find? fun o => decide (headingAt t.dict o ∉ t.obj) with
  | some o => ((cols.take (o + 1)).map trim ++ cols.drop (o + 1), [])
  | none => (cols.map trim, cols.map trim)

def push (t : Table) (back : List Cell) : Table :=
  { t with
    obj := back.zipIdx.foldl (fun obj e => obj.modify (headingAt t.dict e.2) fun l => l ++ [e.1]) t.obj
    n := t.n + 1 }

def count (t : Table) : Table := { t with n := t.n + 1 }

end Table

/-- Makes another row of one that has not found its columns. -/
abbrev Fixer := List Cell → List Cell → Option (List Cell)

/-- The loop of `outputConvert`. A row that is fixed is taken again in place of its line. -/
def convertLoop (expects : Nat) (fixer : Option Fixer) :
    Nat → List (List Char) → Option (List Cell) → Table → Option Columns
  | 0, _, _, _ => none
  | _ + 1, [], _, t => some t.obj
  | fuel + 1, line :: lines, apply_result, t =>
    match apply_result.or (columns expects (decide (t.n ≠ 0)) line) with
    | none => convertLoop expects fixer fuel lines none t
    | some cols =>
      if t.n = 0 then convertLoop expects fixer fuel lines none (t.withHeadings cols)
      else if (t.rowBack cols).2 ≠ [] then convertLoop expects fixer fuel lines none (t.push (t.rowBack cols).2)
      else
        match fixer.bind fun fixer => fixer t.dict (t.rowBack cols).1 with
        | some result => convertLoop expects fixer fuel (line :: lines) (some result) t.count
        | none => convertLoop expects fixer fuel lines none t.count

def outputConvert (fuel : Nat) (str : List Char) (expects : Nat) (fixer : Option Fixer) : Option Columns :=
  convertLoop expects fixer fuel (str.splitOn '\n') none Table.start

def hasLetter (cell : Cell) : Bool := cell.any Char.isAlpha

/-- The first cell takes in the next ones while they have letters and the row is too long. -/
def combineInto (expects : Nat) (first : Cell) : List Cell → List Cell
  | [] => [first]
  | cell :: rest =>
    if hasLetter cell then
      let joined := first ++ ' ' :: cell
      if expects < rest.length + 1 then combineInto expects joined rest else joined :: rest
    else first :: cell :: rest

/-- The `combiner` of `getDiskInfo`, for a row that has more columns than there are headings. -/
def combiner (expects : Nat) : List Cell → List Cell
  | [] => []
  | first :: rest => combineInto expects first rest

def diskFixer : Fixer := fun dict cols =>
  if dict.length < cols.length then some (combiner dict.length cols) else none

def indexOf (pat : List Char) : List Char → Option Nat
  | [] => if pat = [] then some 0 else none
  | c :: cs => if pat.isPrefixOf (c :: cs) then some 0 else (indexOf pat cs).map (· + 1)

def replaceFirst (pat text cs : List Char) : List Char :=
  match indexOf pat cs with
  | none => cs
  | some i => cs.take i ++ text ++ cs.drop (i + pat.length)

def diskText (toLowerCase : List Char → List Char) (out : List Char) : List Char :=
  let out := replaceFirst "mounted on".toList "mounted_on".toList (toLowerCase out)
  match indexOf "\n\n".toList out with
  | none => out
  | some ln => if 0 < ln then out.drop (ln + 2) else out

/-- What `getDiskInfo` returns of an exit code and an output, if it does within so many steps. -/
def getDiskInfo (toLowerCase : List Char → List Char) (fuel exitCode : Nat) (out : List Char) :
    Option (Except String Columns) :=
  if exitCode ≠ 0 ∨ out = [] then some (.error "UnableToRead")
  else (outputConvert fuel (diskText toLowerCase out) 0 (some diskFixer)).map .ok

def tableOf (expects : Nat) : List (List Char) → Option (List Cell × List (List Cell))
  | [] => none
  | line :: lines =>
    match columns expects false line with
    | none => tableOf expects lines
    | some cols => some (cols.map trim, lines.filterMap (columns expects true))

def dataRows (expects : Nat) (str : List Char) : List (List Cell) :=
  ((tableOf expects (str.splitOn '\n')).map Prod.snd).getD []

/-- The columns of a row of some width that are under a heading. What is beyond the headings is under
`undefined`. -/
def placesUnder (dict : List Cell) (width : Nat) (heading : Cell) : Nat :=
  ((List.range width).map (headingAt dict)).count heading

/-- The width that a row comes to. It is not cut where a column is called `undefined`. -/
def rowWidth (dict : List Cell) (row : List Cell) : Nat :=
  if "undefined".toList ∈ dict then row.length else min row.length dict.length

/-- Every row fits or can be joined until it does, and each heading has as many columns below it as
there are rows. -/
structure Tabular (dict : List Cell) (rows : List (List Cell)) : Prop where
  joins : "undefined".toList ∉ dict → ∀ row ∈ rows, ∀ cell ∈ (row.drop 1).take (row.length - dict.length),
    hasLetter cell = true
  counts : ∀ heading ∈ dict, (rows.map fun row => placesUnder dict (rowWidth dict row) heading).sum = rows.length

/-- The conversion comes to an end, and each array has a value for each row. -/
def DiskInfoRight (toLowerCase : List Char → List Char) (exitCode : Nat) (out : List Char) : Prop :=
  ∃ fuel r, getDiskInfo toLowerCase fuel exitCode out = some r ∧ ∀ obj, r = .ok obj →
    ∀ heading arr, obj.get? heading = some arr → arr.length = (dataRows 0 (diskText toLowerCase out)).length

section Combiner
variable {expects : Nat} {first : Cell} {rest : List Cell}

theorem length_combineInto (hpos : 0 < expects) (hlong : expects < rest.length + 1)
    (h : ∀ cell ∈ rest.take (rest.length + 1 - expects), hasLetter cell = true) :
    (combineInto expects first rest).length = expects := by
  induction rest generalizing first with
  | nil =>
    simp only [List.length_nil] at hlong
    omega
  | cons cell rest ih =>
    simp only [List.length_cons] at hlong h
    have hn : rest.length + 1 + 1 - expects = (rest.length + 1 - expects) + 1 := by omega
    rw [hn, List.take_succ_cons, List.forall_mem_cons] at h
    rw [combineInto, if_pos h.1]
    dsimp only
    by_cases hmore : expects < rest.length + 1
    · rw [if_pos hmore]
      exact ih hmore h.2
    · rw [if_neg hmore, List.length_cons]
      omega

def Stuck (expects : Nat) (cols : List Cell) : Prop :=
  expects < cols.length ∧ ∃ first cell rest, cols = first :: cell :: rest ∧ hasLetter cell = false

theorem stuck_combineInto (hpos : 0 < expects) (hlong : expects < rest.length + 1)
    (h : ∃ cell ∈ rest.take (rest.length + 1 - expects), hasLetter cell = false) :
    Stuck expects (combineInto expects first rest) := by
  induction rest generalizing first with
  | nil =>
    simp only [List.length_nil] at hlong
    omega
  | cons cell rest ih =>
    simp only [List.length_cons] at hlong h
    have hn : rest.length + 1 + 1 - expects = (rest.length + 1 - expects) + 1 := by omega
    rw [hn, List.take_succ_cons] at h
    obtain ⟨bad, hbad, hno⟩ := h
    rw [combineInto]
    cases hcell : hasLetter cell with
    | false =>
      rw [if_neg Bool.false_ne_true]
      refine ⟨?_, first, cell, rest, rfl, hcell⟩
      rw [List.length_cons, List.length_cons]
      exact hlong
    | true =>
      have hrest : bad ∈ rest.take (rest.length + 1 - expects) := by
        rcases List.mem_cons.1 hbad with rfl | hbad
        · rw [hcell] at hno
          cases hno
        · exact hbad
      have hmore : expects < rest.length + 1 := by
        by_contra hle
        have hzero : rest.length + 1 - expects = 0 := by omega
        rw [hzero, List.take_zero] at hrest
        cases hrest
      rw [if_pos rfl]
      dsimp only
      rw [if_pos hmore]
      exact ih hmore ⟨bad, hrest, hno⟩

theorem combiner_stuck {cols : List Cell} (h : Stuck expects cols) : combiner expects cols = cols := by
  obtain ⟨-, first, cell, rest, rfl, hno⟩ := h
  rw [combiner, combineInto, if_neg (by rw [hno]; exact Bool.false_ne_true)]

theorem any_dropWhile_space (cs : List Char) : (cs.dropWhile jsSpace).any Char.isAlpha = cs.any Char.isAlpha := by
  induction cs with
  | nil => rfl
  | cons c cs ih =>
    rw [List.dropWhile_cons]
    cases hc : jsSpace c with
    | false => rfl
    | true =>
      have hno : c.isAlpha = false := by
        rw [← Bool.not_eq_true]
        intro halpha
        have hvisible := visible_of_isAlphanum (Bool.or_eq_true_iff.2 (.inl halpha))
        rw [jsSpace_of_visible hvisible.1 hvisible.2] at hc
        cases hc
      rw [if_pos rfl, ih, List.any_cons, hno, Bool.false_or]

theorem hasLetter_trim (cell : Cell) : hasLetter (trim cell) = hasLetter cell := by
  rw [hasLetter, trim, List.any_reverse, any_dropWhile_space, List.any_reverse, any_dropWhile_space]
  rfl

end Combiner

section Rows
variable {dict : List Cell} {t : Table} {cols : List Cell} {heading : Cell}

structure Shaped (dict : List Cell) (t : Table) : Prop where
  dict_eq : t.dict = dict
  n_ne : t.n ≠ 0
  keys : ∀ c, c ∈ t.obj ↔ c ∈ dict

def Fits (dict cols : List Cell) : Prop := "undefined".toList ∈ dict ∨ cols.length ≤ dict.length

def Joins (dict row : List Cell) : Prop :=
  ∀ cell ∈ (row.drop 1).take (row.length - dict.length), hasLetter cell = true

def leftAt (n : Nat) (cols : List Cell) : List Cell := (cols.take (n + 1)).map trim ++ cols.drop (n + 1)

theorem headingAt_lt {o : Nat} (h : o < dict.length) : headingAt dict o ∈ dict := by
  rw [headingAt, List.getElem?_eq_getElem h]
  exact List.getElem_mem h

theorem headingAt_ge {o : Nat} (h : dict.length ≤ o) : headingAt dict o = "undefined".toList := by
  rw [headingAt, List.getElem?_eq_none h]
  rfl

theorem Shaped.rowBack_fits (hs : Shaped dict t) (hf : Fits dict cols) :
    t.rowBack cols = (cols.map trim, cols.map trim) := by
  have hnone : (List.range cols.length).find? (fun o => decide (headingAt t.dict o ∉ t.obj)) = none := by
    apply List.find?_eq_none.2
    intro o ho hd
    have habsent := of_decide_eq_true hd
    rw [hs.dict_eq, hs.keys] at habsent
    rcases Nat.lt_or_ge o dict.length with hlt | hge
    · exact habsent (headingAt_lt hlt)
    · rcases hf with hund | hle
      · exact habsent (headingAt_ge hge ▸ hund)
      · exact absurd (List.mem_range.1 ho) (by omega)
  rw [Table.rowBack, hnone]

theorem Shaped.rowBack_long (hs : Shaped dict t) (hf : ¬Fits dict cols) :
    t.rowBack cols = (leftAt dict.length cols, []) := by
  rw [Fits, not_or, Nat.not_le] at hf
  have hsome : (List.range cols.length).find? (fun o => decide (headingAt t.dict o ∉ t.obj)) = some dict.length := by
    rw [List.find?_range_eq_some, hs.dict_eq]
    refine ⟨?_, List.mem_range.2 hf.2, fun o ho => ?_⟩
    · rw [headingAt_ge (Nat.le_refl _)]
      exact decide_eq_true (mt (hs.keys _).1 hf.1)
    · have hin := (hs.keys _).2 (headingAt_lt ho)
      simpa using hin
  rw [Table.rowBack, hsome]
  rfl

theorem length_leftAt (n : Nat) (cols : List Cell) : (leftAt n cols).length = cols.length := by
  rw [leftAt, List.length_append, List.length_map, ← List.length_append, List.take_append_drop]

theorem letters_leftAt (n : Nat) (cols : List Cell) : (leftAt n cols).map hasLetter = cols.map hasLetter := by
  have htrim : ∀ l : List Cell, (l.map trim).map hasLetter = l.map hasLetter := by
    intro l
    rw [List.map_map]
    exact List.map_congr_left fun cell _ => hasLetter_trim cell
  rw [leftAt, List.map_append, htrim, ← List.map_append, List.take_append_drop]

theorem stuck_leftAt {n : Nat} (hpos : 0 < n) (h : Stuck n cols) : Stuck n (leftAt n cols) := by
  obtain ⟨hlong, first, cell, rest, rfl, hno⟩ := h
  refine ⟨by rw [length_leftAt]; exact hlong, ?_⟩
  obtain ⟨k, rfl⟩ := Nat.exists_eq_succ_of_ne_zero (by omega : n ≠ 0)
  refine ⟨trim first, trim cell, _, rfl, ?_⟩
  rw [hasLetter_trim]
  exact hno

theorem joins_leftAt (n : Nat) : Joins dict (leftAt n cols) ↔ Joins dict cols := by
  have hall : ∀ row : List Cell, Joins dict row ↔
      ∀ b ∈ ((row.map hasLetter).drop 1).take (row.length - dict.length), b = true := by
    intro row
    rw [← List.map_drop, ← List.map_take, List.forall_mem_map]
    rfl
  rw [hall, hall, letters_leftAt, length_leftAt]

theorem joins_of_fits (hund : "undefined".toList ∉ dict) (hf : Fits dict cols) : Joins dict cols := by
  have hle : cols.length ≤ dict.length := hf.resolve_left hund
  intro cell hcell
  rw [Nat.sub_eq_zero_of_le hle, List.take_zero] at hcell
  cases hcell

theorem combiner_cases (hpos : 0 < dict.length) (hf : ¬Fits dict cols) :
    (Joins dict cols → (combiner dict.length cols).length = dict.length) ∧
      (¬Joins dict cols → Stuck dict.length (combiner dict.length cols)) := by
  rw [Fits, not_or, Nat.not_le] at hf
  cases cols with
  | nil => exact absurd hf.2 (Nat.not_lt_zero _)
  | cons first rest =>
    constructor
    · intro hj
      exact length_combineInto hpos hf.2 hj
    · intro hj
      apply stuck_combineInto hpos hf.2
      by_contra hno
      apply hj
      intro cell hcell
      by_contra hc
      exact hno ⟨cell, hcell, Bool.not_eq_true _ ▸ hc⟩

end Rows

section Pushes
variable {dict : List Cell} {obj : Columns} {heading : Cell} {back arr : List Cell}

theorem mem_foldl_push (k : Nat) : heading ∈ (back.zipIdx k).foldl
      (fun obj e => obj.modify (headingAt dict e.2) fun l => l ++ [e.1]) obj ↔ heading ∈ obj := by
  induction back generalizing k obj with
  | nil => exact Iff.rfl
  | cons v back ih =>
    rw [List.zipIdx_cons, List.foldl_cons, ih]
    exact Dict.mem_modify

theorem get?_foldl_push (k : Nat) (h : obj.get? heading = some arr) : ∃ arr', ((back.zipIdx k).foldl
      (fun obj e => obj.modify (headingAt dict e.2) fun l => l ++ [e.1]) obj).get? heading = some arr' ∧
        arr'.length = arr.length + ((List.range' k back.length).map (headingAt dict)).count heading := by
  induction back generalizing k obj arr with
  | nil => exact ⟨arr, h, rfl⟩
  | cons v back ih =>
    rw [List.zipIdx_cons, List.foldl_cons, List.length_cons, List.range'_succ, List.map_cons]
    by_cases hk : headingAt dict k = heading
    · have hpushed : (obj.modify (headingAt dict k) fun l => l ++ [v]).get? heading = some (arr ++ [v]) := by
        rw [hk, Dict.get?_modify_self, h]
        rfl
      obtain ⟨arr', hget, hlen⟩ := ih (k + 1) hpushed
      refine ⟨arr', hget, ?_⟩
      rw [hlen, hk, List.count_cons_self, List.length_append, List.length_singleton]
      omega
    · have hkept : (obj.modify (headingAt dict k) fun l => l ++ [v]).get? heading = some arr := by
        rw [Dict.get?_modify_ne _ _ (Ne.symm hk)]
        exact h
      obtain ⟨arr', hget, hlen⟩ := ih (k + 1) hkept
      refine ⟨arr', hget, ?_⟩
      rw [hlen, List.count_cons_of_ne hk]

theorem Shaped.push {t : Table} (hs : Shaped dict t) (back : List Cell) : Shaped dict (t.push back) := by
  refine ⟨hs.dict_eq, Nat.succ_ne_zero _, fun c => ?_⟩
  rw [← hs.keys]
  exact mem_foldl_push 0

theorem Shaped.count {t : Table} (hs : Shaped dict t) : Shaped dict t.count :=
  ⟨hs.dict_eq, Nat.succ_ne_zero _, hs.keys⟩

theorem Shaped.get?_push {t : Table} (hs : Shaped dict t) (back : List Cell) (h : t.obj.get? heading = some arr) :
    ∃ arr', (t.push back).obj.get? heading = some arr' ∧
      arr'.length = arr.length + placesUnder dict back.length heading := by
  have hdict := hs.dict_eq
  subst hdict
  obtain ⟨arr', hget, hlen⟩ := @get?_foldl_push t.dict t.obj heading back arr 0 h
  refine ⟨arr', hget, ?_⟩
  rw [hlen, placesUnder, List.range_eq_range']

end Pushes

section Loop
variable {expects fuel : Nat} {fixer : Option Fixer} {dict cols : List Cell} {t : Table} {line : List Char}
  {lines : List (List Char)} {apply_result : Option (List Cell)}

theorem convertLoop_mono {obj : Columns} (h : convertLoop expects fixer fuel lines apply_result t = some obj) :
    convertLoop expects fixer (fuel + 1) lines apply_result t = some obj := by
  induction fuel generalizing lines apply_result t with
  | zero => cases h
  | succ fuel ih =>
    cases lines with
    | nil => exact h
    | cons line lines =>
      rw [convertLoop] at h
      rw [convertLoop]
      cases hc : apply_result.or (columns expects (decide (t.n ≠ 0)) line) with
      | none =>
        rw [hc] at h
        exact ih h
      | some cols =>
        rw [hc] at h
        dsimp only at h ⊢
        split at h
        · rename_i hn
          rw [if_pos hn]
          exact ih h
        · rename_i hn
          rw [if_neg hn]
          split at h
          · rename_i hb
            rw [if_pos hb]
            exact ih h
          · rename_i hb
            rw [if_neg hb]
            cases hx : fixer.bind fun fixer => fixer t.dict (t.rowBack cols).1 with
            | none =>
              rw [hx] at h
              exact ih h
            | some result =>
              rw [hx] at h
              exact ih h

theorem convertLoop_le {obj : Columns} {fuel' : Nat} (hle : fuel ≤ fuel')
    (h : convertLoop expects fixer fuel lines apply_result t = some obj) :
    convertLoop expects fixer fuel' lines apply_result t = some obj := by
  induction hle with
  | refl => exact h
  | step _ ih => exact convertLoop_mono ih

theorem Shaped.convertLoop_fits (hs : Shaped dict t)
    (hc : apply_result.or (columns expects true line) = some cols) (hne : cols ≠ []) (hf : Fits dict cols) :
    convertLoop expects fixer (fuel + 1) (line :: lines) apply_result t =
      convertLoop expects fixer fuel lines none (t.push (cols.map trim)) := by
  have hback : cols.map trim ≠ [] := fun he => hne (List.map_eq_nil_iff.1 he)
  rw [convertLoop, decide_eq_true hs.n_ne, hc]
  dsimp only
  rw [if_neg hs.n_ne, hs.rowBack_fits hf, if_pos hback]

theorem Shaped.convertLoop_long (hs : Shaped dict t)
    (hc : apply_result.or (columns expects true line) = some cols) (hf : ¬Fits dict cols) :
    convertLoop expects (some diskFixer) (fuel + 1) (line :: lines) apply_result t =
      convertLoop expects (some diskFixer) fuel (line :: lines)
        (some (combiner dict.length (leftAt dict.length cols))) t.count := by
  have hlong : dict.length < (leftAt dict.length cols).length := by
    rw [Fits, not_or, Nat.not_le] at hf
    rw [length_leftAt]
    exact hf.2
  rw [convertLoop, decide_eq_true hs.n_ne, hc]
  dsimp only
  rw [if_neg hs.n_ne, hs.rowBack_long hf, if_neg (not_not.2 rfl), Option.bind_some, diskFixer, hs.dict_eq,
    if_pos hlong]

/-- A row that stays too long is read again for ever. -/
theorem Shaped.convertLoop_stuck (hs : Shaped dict t) (hpos : 0 < dict.length) (hund : "undefined".toList ∉ dict)
    (h : Stuck dict.length cols) :
    convertLoop expects (some diskFixer) fuel (line :: lines) (some cols) t = none := by
  induction fuel generalizing cols t with
  | zero => rfl
  | succ fuel ih =>
    have hf : ¬Fits dict cols := by
      rintro (hu | hle)
      · exact hund hu
      · exact absurd h.1 (by omega)
    have hleft := stuck_leftAt hpos h
    rw [hs.convertLoop_long rfl hf, combiner_stuck hleft]
    exact ih hs.count hleft

theorem columns_ne_nil {more : Bool} (h : columns expects more line = some cols) : cols ≠ [] := by
  unfold columns at h
  dsimp only at h
  split at h
  · cases h
  · rename_i hc
    cases h
    exact fun hnil => hc (.inl hnil)

def Keepable (dict row : List Cell) : Prop := Fits dict row ∨ Joins dict row

/-- A row that can be kept gives each array the values that are under its heading. -/
theorem Shaped.keep (hs : Shaped dict t) (lines : List (List Char)) (hpos : 0 < dict.length) (hc : columns expects true line = some cols)
    (hk : Keepable dict cols) : ∃ cost t', Shaped dict t' ∧
      (∀ fuel, convertLoop expects (some diskFixer) (cost + fuel) (line :: lines) none t =
        convertLoop expects (some diskFixer) fuel lines none t') ∧
      ∀ heading arr, t.obj.get? heading = some arr → ∃ arr', t'.obj.get? heading = some arr' ∧
        arr'.length = arr.length + placesUnder dict (rowWidth dict cols) heading := by
  have hread : (none : Option (List Cell)).or (columns expects true line) = some cols := hc
  have hne := columns_ne_nil hc
  by_cases hf : Fits dict cols
  · have hwidth : (cols.map trim).length = rowWidth dict cols := by
      rw [List.length_map, rowWidth]
      split
      · rfl
      · rename_i hund
        exact (Nat.min_eq_left (hf.resolve_left hund)).symm
    refine ⟨1, t.push (cols.map trim), hs.push _, fun fuel => ?_, fun heading arr h => ?_⟩
    · rw [Nat.add_comm]
      exact hs.convertLoop_fits hread hne hf
    · rw [← hwidth]
      exact hs.get?_push _ h
  · have hleft : ¬Fits dict (leftAt dict.length cols) := by
      rw [Fits, length_leftAt]
      exact hf
    have hjoins : Joins dict (leftAt dict.length cols) := (joins_leftAt _).2 (hk.resolve_left hf)
    have hlength := (combiner_cases hpos hleft).1 hjoins
    generalize hrow : combiner dict.length (leftAt dict.length cols) = row at hlength
    have hfits : Fits dict row := .inr (by omega)
    have hrowne : row ≠ [] := by
      rintro rfl
      rw [List.length_nil] at hlength
      omega
    have hwidth : (row.map trim).length = rowWidth dict cols := by
      rw [Fits, not_or, Nat.not_le] at hf
      rw [List.length_map, hlength, rowWidth, if_neg hf.1]
      omega
    refine ⟨2, t.count.push (row.map trim), hs.count.push _, fun fuel => ?_, fun heading arr h => ?_⟩
    · have hcost : 2 + fuel = (fuel + 1) + 1 := by omega
      rw [hcost, hs.convertLoop_long hread hf, hrow]
      exact hs.count.convertLoop_fits rfl hrowne hfits
    · rw [← hwidth]
      exact hs.count.get?_push _ h

theorem Shaped.skip (hs : Shaped dict t) (hc : columns expects true line = none) :
    convertLoop expects fixer (fuel + 1) (line :: lines) none t = convertLoop expects fixer fuel lines none t := by
  rw [convertLoop, decide_eq_true hs.n_ne, hc]
  rfl

/-- Where all rows can be kept the loop ends, and each array has grown by the values of all rows. -/
theorem Shaped.ends (hs : Shaped dict t) (hpos : 0 < dict.length)
    (h : ∀ row ∈ lines.filterMap (columns expects true), Keepable dict row) :
    ∃ fuel obj, convertLoop expects (some diskFixer) fuel lines none t = some obj ∧ (∀ c, c ∈ obj ↔ c ∈ dict) ∧
      ∀ heading arr, t.obj.get? heading = some arr → ∃ arr', obj.get? heading = some arr' ∧
        arr'.length = arr.length + ((lines.filterMap (columns expects true)).map fun row =>
          placesUnder dict (rowWidth dict row) heading).sum := by
  induction lines generalizing t with
  | nil => exact ⟨1, t.obj, rfl, hs.keys, fun heading arr h => ⟨arr, h, rfl⟩⟩
  | cons line lines ih =>
    cases hc : columns expects true line with
    | none =>
      rw [List.filterMap_cons_none hc] at h ⊢
      obtain ⟨fuel, obj, hrun, hrest⟩ := ih hs h
      exact ⟨fuel + 1, obj, (hs.skip hc).trans hrun, hrest⟩
    | some cols =>
      rw [List.filterMap_cons_some hc, List.forall_mem_cons] at h
      rw [List.filterMap_cons_some hc]
      obtain ⟨cost, t', hs', hstep, hgrow⟩ := hs.keep lines hpos hc h.1
      obtain ⟨fuel, obj, hrun, hkeys, hall⟩ := ih hs' h.2
      refine ⟨cost + fuel, obj, (hstep fuel).trans hrun, hkeys, fun heading arr harr => ?_⟩
      obtain ⟨arr', harr', hlen'⟩ := hgrow heading arr harr
      obtain ⟨arr'', harr'', hlen''⟩ := hall heading arr' harr'
      refine ⟨arr'', harr'', ?_⟩
      rw [hlen'', hlen', List.map_cons, List.sum_cons, Nat.add_assoc]

theorem Shaped.hangs (hs : Shaped dict t) (hpos : 0 < dict.length)
    (h : ∃ row ∈ lines.filterMap (columns expects true), ¬Keepable dict row) :
    convertLoop expects (some diskFixer) fuel lines none t = none := by
  induction lines generalizing fuel t with
  | nil =>
    obtain ⟨row, hrow, -⟩ := h
    cases hrow
  | cons line lines ih =>
    cases hc : columns expects true line with
    | none =>
      rw [List.filterMap_cons_none hc] at h
      cases fuel with
      | zero => rfl
      | succ fuel => exact (hs.skip hc).trans (ih hs h)
    | some cols =>
      have hread : (none : Option (List Cell)).or (columns expects true line) = some cols := hc
      by_cases hk : Keepable dict cols
      · have hrest : ∃ row ∈ lines.filterMap (columns expects true), ¬Keepable dict row := by
          rw [List.filterMap_cons_some hc] at h
          obtain ⟨row, hrow, hno⟩ := h
          rcases List.mem_cons.1 hrow with rfl | hrow
          · exact absurd hk hno
          · exact ⟨row, hrow, hno⟩
        obtain ⟨cost, t', hs', hstep, -⟩ := hs.keep lines hpos hc hk
        by_contra hsome
        obtain ⟨obj, hobj⟩ := Option.ne_none_iff_exists'.1 hsome
        have hmore := convertLoop_le (Nat.le_add_left fuel cost) hobj
        rw [hstep fuel, ih hs' hrest] at hmore
        cases hmore
      · rw [Keepable, not_or] at hk
        have hund : "undefined".toList ∉ dict := fun hu => hk.1 (.inl hu)
        cases fuel with
        | zero => rfl
        | succ fuel =>
          have hleft : ¬Fits dict (leftAt dict.length cols) := by
            rw [Fits, length_leftAt]
            exact hk.1
          rw [hs.convertLoop_long hread hk.1]
          exact hs.count.convertLoop_stuck hpos hund
            ((combiner_cases hpos hleft).2 (mt (joins_leftAt _).1 hk.2))

end Loop

section Headings
variable {expects fuel : Nat} {lines : List (List Char)} {dict : List Cell} {rows : List (List Cell)}

theorem get?_foldl_headings (cols : List Cell) (obj : Columns) (c : Cell) :
    (cols.foldl (fun obj c => obj.set (trim c) []) obj).get? c =
      if c ∈ cols.map trim then some [] else obj.get? c := by
  induction cols generalizing obj with
  | nil => rfl
  | cons d cols ih =>
    rw [List.foldl_cons, ih, List.map_cons, Dict.get?_set]
    by_cases hc : c ∈ cols.map trim
    · rw [if_pos hc, if_pos (List.mem_cons_of_mem _ hc)]
    · rw [if_neg hc]
      by_cases hd : c = trim d
      · rw [if_pos hd, if_pos (hd ▸ List.mem_cons_self)]
      · rw [if_neg hd, if_neg]
        rw [List.mem_cons, not_or]
        exact ⟨hd, hc⟩

theorem shaped_withHeadings (cols : List Cell) :
    Shaped (cols.map trim) (Table.start.withHeadings cols) ∧
      ∀ c ∈ cols.map trim, (Table.start.withHeadings cols).obj.get? c = some [] := by
  have hget : ∀ c, (Table.start.withHeadings cols).obj.get? c = if c ∈ cols.map trim then some [] else none :=
    get?_foldl_headings cols .empty
  refine ⟨⟨rfl, Nat.succ_ne_zero _, fun c => ?_⟩, fun c hc => (hget c).trans (if_pos hc)⟩
  rw [Dict.mem_iff, hget]
  by_cases hc : c ∈ cols.map trim
  · rw [if_pos hc]
    exact iff_of_true ⟨_, rfl⟩ hc
  · rw [if_neg hc]
    exact iff_of_false (fun h => by obtain ⟨v, hv⟩ := h; cases hv) hc

theorem convertLoop_start : (tableOf expects lines = none →
      ∃ fuel, convertLoop expects (some diskFixer) fuel lines none Table.start = some .empty) ∧
    (tableOf expects lines = some (dict, rows) → ∃ cost t below, 0 < dict.length ∧ Shaped dict t ∧
      (∀ c ∈ dict, t.obj.get? c = some []) ∧ rows = below.filterMap (columns expects true) ∧
        (∀ fuel, convertLoop expects (some diskFixer) (cost + fuel) lines none Table.start =
          convertLoop expects (some diskFixer) fuel below none t)) := by
  induction lines with
  | nil =>
    refine ⟨fun _ => ⟨1, rfl⟩, fun h => ?_⟩
    cases h
  | cons line lines ih =>
    cases hc : columns expects false line with
    | none =>
      have hskip : ∀ fuel, convertLoop expects (some diskFixer) (fuel + 1) (line :: lines) none Table.start =
          convertLoop expects (some diskFixer) fuel lines none Table.start := by
        intro fuel
        have hread : (none : Option (List Cell)).or (columns expects (decide (Table.start.n ≠ 0)) line) = none := hc
        rw [convertLoop, hread]
      rw [tableOf, hc]
      constructor
      · intro h
        obtain ⟨fuel, hrun⟩ := ih.1 h
        exact ⟨fuel + 1, (hskip fuel).trans hrun⟩
      · intro h
        obtain ⟨cost, t, below, hpos, hs, hempty, hrows, hrun⟩ := ih.2 h
        refine ⟨cost + 1, t, below, hpos, hs, hempty, hrows, fun fuel => ?_⟩
        rw [Nat.add_right_comm]
        exact (hskip (cost + fuel)).trans (hrun fuel)
    | some cols =>
      rw [tableOf, hc]
      constructor
      · intro h
        cases h
      · intro h
        cases h
        obtain ⟨hs, hempty⟩ := shaped_withHeadings cols
        have hpos : 0 < (cols.map trim).length := by
          rw [List.length_map]
          exact List.length_pos_of_ne_nil (columns_ne_nil hc)
        refine ⟨1, _, lines, hpos, hs, hempty, rfl, fun fuel => ?_⟩
        have hread : (none : Option (List Cell)).or (columns expects (decide (Table.start.n ≠ 0)) line) = some cols := hc
        rw [Nat.add_comm, convertLoop, hread]
        rfl

/-- The conversion ends with as many values as rows in each array just when the text is tabular. -/
theorem outputConvert_iff (expects : Nat) (str : List Char) :
    (∃ fuel obj, outputConvert fuel str expects (some diskFixer) = some obj ∧
      ∀ heading arr, obj.get? heading = some arr → arr.length = (dataRows expects str).length) ↔
    ∀ dict rows, tableOf expects (str.splitOn '\n') = some (dict, rows) → Tabular dict rows := by
  cases htable : tableOf expects (str.splitOn '\n') with
  | none =>
    obtain ⟨fuel, hrun⟩ := (@convertLoop_start expects (str.splitOn '\n') [] []).1 htable
    apply iff_of_true
    · refine ⟨fuel, .empty, hrun, fun heading arr h => ?_⟩
      cases h
    · intro dict rows h
      cases h
  | some r =>
    obtain ⟨dict, rows⟩ := r
    obtain ⟨cost, t, below, hpos, hs, hempty, rfl, hrun⟩ := convertLoop_start.2 htable
    have hrows : dataRows expects str = below.filterMap (columns expects true) := by
      rw [dataRows, htable]
      rfl
    have hkeep : (∀ row ∈ below.filterMap (columns expects true), Keepable dict row) ↔
        ("undefined".toList ∉ dict → ∀ row ∈ below.filterMap (columns expects true), Joins dict row) := by
      constructor
      · intro h hund row hrow
        exact (h row hrow).elim (joins_of_fits hund) id
      · intro h row hrow
        by_cases hund : "undefined".toList ∈ dict
        · exact .inl (.inl hund)
        · exact .inr (h hund row hrow)
    constructor
    · rintro ⟨fuel, obj, hobj, hlen⟩ dict' rows' he
      cases he
      have hall : ∀ row ∈ below.filterMap (columns expects true), Keepable dict row := by
        by_contra hno
        push Not at hno
        have hmore := convertLoop_le (Nat.le_add_left fuel cost) hobj
        rw [hrun fuel, hs.hangs hpos hno] at hmore
        cases hmore
      obtain ⟨fuel', obj', hobj', -, hgrow⟩ := hs.ends hpos hall
      have hsame : obj = obj' := by
        have hleft := convertLoop_le (Nat.le_add_left fuel (cost + fuel')) hobj
        have hright := convertLoop_le (Nat.le_add_right (cost + fuel') fuel) ((hrun fuel').trans hobj')
        exact Option.some.inj (hleft.symm.trans hright)
      subst hsame
      refine ⟨hkeep.1 hall, fun heading hheading => ?_⟩
      obtain ⟨arr, harr, hsum⟩ := hgrow heading [] (hempty heading hheading)
      rw [List.length_nil, Nat.zero_add] at hsum
      rw [← hsum, hlen heading arr harr, hrows]
    · intro h
      have htab := h dict _ rfl
      obtain ⟨fuel, obj, hobj, hkeys, hgrow⟩ := hs.ends hpos (hkeep.2 htab.joins)
      refine ⟨cost + fuel, obj, (hrun fuel).trans hobj, fun heading arr harr => ?_⟩
      have hheading : heading ∈ dict := (hkeys heading).1 (Dict.mem_of_get? harr)
      obtain ⟨arr', harr', hsum⟩ := hgrow heading [] (hempty heading hheading)
      cases Option.some.inj (harr.symm.trans harr')
      rw [hsum, List.length_nil, Nat.zero_add, htab.counts heading hheading, hrows]

end Headings

/-- The table of the disks is read to an end, with one value for each row in each array, just when the
command failed or wrote nothing, or when each of its rows can be made to fit and no heading gets too
few or too many values. -/
theorem diskInfoRight_iff (toLowerCase : List Char → List Char) (exitCode : Nat) (out : List Char) :
    DiskInfoRight toLowerCase exitCode out ↔ (exitCode ≠ 0 ∨ out = []) ∨
      ∀ dict rows, tableOf 0 ((diskText toLowerCase out).splitOn '\n') = some (dict, rows) → Tabular dict rows := by
  rw [← outputConvert_iff, DiskInfoRight]
  by_cases hread : exitCode ≠ 0 ∨ out = []
  · apply iff_of_true
    · refine ⟨0, .error "UnableToRead", if_pos hread, fun obj h => ?_⟩
      cases h
    · exact .inl hread
  · rw [or_iff_right hread]
    constructor
    · rintro ⟨fuel, r, hrun, hlen⟩
      rw [getDiskInfo, if_neg hread] at hrun
      obtain ⟨obj, hobj, rfl⟩ := Option.map_eq_some_iff.1 hrun
      exact ⟨fuel, obj, hobj, hlen obj rfl⟩
    · rintro ⟨fuel, obj, hobj, hlen⟩
      refine ⟨fuel, .ok obj, ?_, fun obj' he => ?_⟩
      · rw [getDiskInfo, if_neg hread, hobj]
        rfl
      · cases he
        exact hlen

/-- A row with a number in its second column and one column too many is read for ever. -/
theorem long_row_hangs : ¬∀ (toLowerCase : List Char → List Char) (exitCode : Nat) (out : List Char),
    DiskInfoRight toLowerCase exitCode out := by
  intro h
  obtain ⟨fuel, r, hrun, hlen⟩ := h id 0 "filesystem size\n/dev/sda 1 2\n".toList
  have hread : ¬((0 : Nat) ≠ 0 ∨ "filesystem size\n/dev/sda 1 2\n".toList = []) := by decide
  rw [getDiskInfo, if_neg hread] at hrun
  obtain ⟨obj, hobj, rfl⟩ := Option.map_eq_some_iff.1 hrun
  have htab := (outputConvert_iff 0 _).1 ⟨fuel, obj, hobj, hlen obj rfl⟩
    ["filesystem".toList, "size".toList] [["/dev/sda ".toList, "1 ".toList, "2".toList]] (by decide +kernel)
  have hjoins := htab.joins (by decide +kernel) _ List.mem_cons_self "1 ".toList (by decide +kernel)
  revert hjoins
  decide +kernel

end JXPanel

import Mathlib
import JXPanel.Runs

set_option autoImplicit true

/-! Parties that each keep a copy of one value, which they read and write as a whole. -/

namespace Copies
variable {ι κ α β : Type}

/-- A party with what it has asked for and what it was given but has not taken over yet. -/
structure Party (α β : Type) where
  copy : Option α
  asked : Nat
  fetched : List β

/-- The writes wait in the order in which they were given. The changes are counted, and those that were written
are noted, the last one first. -/
structure System (ι κ α β : Type) where
  party : ι → Party α β
  stored : β
  writes : List (ι × β)
  made : Nat
  saves : List (Nat × κ)

inductive Event (ι κ : Type)
  | ask (i : ι)
  | fetch (i : ι)
  | take (i : ι)
  | change (i : ι) (k : κ)
  | save (i : ι) (k : κ)
  | apply

/-- What a change does to a copy, and how a copy is written and read. -/
structure Format (κ α β : Type) where
  act : Nat → κ → α → α
  enc : α → β
  dec : β → Option α

/-- A copy that is nothing but the changes behind it, the last one first. -/
abbrev History (κ : Type) := List (Nat × κ)

def history : Format κ (History κ) (History κ) where
  act n k v := (n, k) :: v
  enc := id
  dec := some

/-- What a history makes of a value. -/
def replay (F : Format κ α β) (start : α) : History κ → α
  | [] => start
  | e :: v => F.act e.1 e.2 (replay F start v)

/-- The change that comes with it is an allowed one. -/
def Event.Labelled (ok : κ → Prop) : Event ι κ → Prop
  | .change _ k => ok k
  | .save _ k => ok k
  | _ => True

def Party.reading (F : Format κ α β) (a₀ : α) (p : Party (History κ) (History κ)) : Party α β where
  copy := p.copy.map (replay F a₀)
  asked := p.asked
  fetched := p.fetched.map fun v => F.enc (replay F a₀ v)

namespace System
variable [DecidableEq ι]

def setParty (s : System ι κ α β) (i : ι) (p : Party α β) : System ι κ α β :=
  { s with party := Function.update s.party i p }

/-- Asking takes what is stored when the question is dealt with. -/
def fetch (s : System ι κ α β) (i : ι) : System ι κ α β :=
  match (s.party i).asked with
  | 0 => s
  | n + 1 => s.setParty i { s.party i with asked := n, fetched := (s.party i).fetched ++ [s.stored] }

/-- A text that cannot be read leaves the copy as it is. -/
def take (F : Format κ α β) (s : System ι κ α β) (i : ι) : System ι κ α β :=
  match (s.party i).fetched with
  | [] => s
  | t :: ts => s.setParty i { s.party i with copy := (F.dec t).or (s.party i).copy, fetched := ts }

/-- The copy is changed but not written. -/
def change (F : Format κ α β) (s : System ι κ α β) (i : ι) (k : κ) : System ι κ α β :=
  match (s.party i).copy with
  | none => s
  | some a => { s.setParty i { s.party i with copy := some (F.act s.made k a) } with made := s.made + 1 }

def save (F : Format κ α β) (s : System ι κ α β) (i : ι) (k : κ) : System ι κ α β :=
  match (s.party i).copy with
  | none => s
  | some a =>
    { s.setParty i { s.party i with copy := some (F.act s.made k a) } with
      writes := s.writes ++ [(i, F.enc (F.act s.made k a))]
      made := s.made + 1
      saves := (s.made, k) :: s.saves }

def apply (s : System ι κ α β) : System ι κ α β :=
  match s.writes with
  | [] => s
  | w :: ws => { s with stored := w.2, writes := ws }

def step (F : Format κ α β) (s : System ι κ α β) : Event ι κ → System ι κ α β
  | .ask i => s.setParty i { s.party i with asked := (s.party i).asked + 1 }
  | .fetch i => s.fetch i
  | .take i => s.take F i
  | .change i k => s.change F i k
  | .save i k => s.save F i k
  | .apply => s.apply

/-- What is stored once all that was written has been dealt with. -/
def newest (s : System ι κ α β) : β := ((s.writes.getLast?).map Prod.snd).getD s.stored

@[simp] theorem setParty_self (s : System ι κ α β) (i : ι) (p : Party α β) : (s.setParty i p).party i = p := by
  change Function.update s.party i p i = p
  rw [Function.update_self]

theorem setParty_of_ne (s : System ι κ α β) {i j : ι} (p : Party α β) (h : j ≠ i) :
    (s.setParty i p).party j = s.party j := by
  change Function.update s.party i p j = s.party j
  rw [Function.update_of_ne h]

/-- A property of all copies, of all that was fetched, and of all that is stored or will be. -/
structure Each (P : α → Prop) (Q : β → Prop) (s : System ι κ α β) : Prop where
  copy : ∀ i a, (s.party i).copy = some a → P a
  fetched : ∀ i, ∀ t ∈ (s.party i).fetched, Q t
  stored : Q s.stored
  writes : ∀ w ∈ s.writes, Q w.2

section Each
variable {F : Format κ α β} {P : α → Prop} {Q : β → Prop} {s : System ι κ α β} {e : Event ι κ}

omit [DecidableEq ι] in
theorem newest_of_mem (s : System ι κ α β) : s.newest = s.stored ∨ ∃ w ∈ s.writes, s.newest = w.2 := by
  rw [newest]
  cases hlast : s.writes.getLast? with
  | none => exact .inl rfl
  | some w => exact .inr ⟨w, List.mem_of_getLast? hlast, rfl⟩

omit [DecidableEq ι] in
theorem Each.newest (h : Each P Q s) : Q s.newest := by
  rcases s.newest_of_mem with he | ⟨w, hw, he⟩
  · rw [he]
    exact h.stored
  · rw [he]
    exact h.writes w hw

theorem Each.setParty (h : Each P Q s) {i : ι} {p : Party α β} (hcopy : ∀ a, p.copy = some a → P a)
    (hfetched : ∀ t ∈ p.fetched, Q t) : Each P Q (s.setParty i p) := by
  refine ⟨fun j a ha => ?_, fun j t ht => ?_, h.stored, h.writes⟩
  · rcases eq_or_ne j i with rfl | hj
    · rw [setParty_self] at ha
      exact hcopy a ha
    · rw [setParty_of_ne s p hj] at ha
      exact h.copy j a ha
  · rcases eq_or_ne j i with rfl | hj
    · rw [setParty_self] at ht
      exact hfetched t ht
    · rw [setParty_of_ne s p hj] at ht
      exact h.fetched j t ht

/-- The values that a step adds are the changed copies. -/
theorem Each.step (h : Each P Q s) (henc : ∀ a, P a → Q (F.enc a)) (hdec : ∀ t a, Q t → F.dec t = some a → P a)
    (hchange : ∀ i k a, e = .change i k ∨ e = .save i k → (s.party i).copy = some a → P (F.act s.made k a)) :
    Each P Q (s.step F e) := by
  cases e with
  | ask i => exact h.setParty (h.copy i) (h.fetched i)
  | fetch i =>
    rw [System.step, System.fetch]
    split
    · exact h
    · refine h.setParty (h.copy i) fun t ht => ?_
      rcases List.mem_append.1 ht with ht | ht
      · exact h.fetched i t ht
      · rw [List.mem_singleton.1 ht]
        exact h.stored
  | take i =>
    rw [System.step, System.take]
    split
    · exact h
    · next t ts hts =>
      have hall : ∀ u ∈ t :: ts, Q u := hts ▸ h.fetched i
      refine h.setParty (fun a ha => ?_) fun u hu => hall u (List.mem_cons_of_mem t hu)
      rcases Option.or_eq_some_iff.1 ha with ha | ⟨-, ha⟩
      · exact hdec t a (hall t List.mem_cons_self) ha
      · exact h.copy i a ha
  | change i k =>
    rw [System.step, System.change]
    split
    · exact h
    · next a ha =>
      have hset := h.setParty (i := i) (p := { s.party i with copy := some (F.act s.made k a) })
        (fun b hb => Option.some.inj hb ▸ hchange i k a (.inl rfl) ha) (h.fetched i)
      exact ⟨hset.copy, hset.fetched, hset.stored, hset.writes⟩
  | save i k =>
    rw [System.step, System.save]
    split
    · exact h
    · next a ha =>
      have hnew := hchange i k a (.inr rfl) ha
      have hset := h.setParty (i := i) (p := { s.party i with copy := some (F.act s.made k a) })
        (fun b hb => Option.some.inj hb ▸ hnew) (h.fetched i)
      refine ⟨hset.copy, hset.fetched, hset.stored, fun w hw => ?_⟩
      rcases List.mem_append.1 hw with hw | hw
      · exact h.writes w hw
      · rw [List.mem_singleton.1 hw]
        exact henc _ hnew
  | apply =>
    rw [System.step, System.apply]
    split
    · exact h
    · next w ws hws =>
      have hall : ∀ u ∈ w :: ws, Q u.2 := hws ▸ h.writes
      exact ⟨h.copy, h.fetched, hall w List.mem_cons_self, fun u hu => hall u (List.mem_cons_of_mem w hu)⟩

end Each

/-! Systems of histories. -/

section History
variable {s : System ι κ (History κ) (History κ)} {v : History κ} {origin : Nat → History κ}

/-- Each change was made but once, on the history behind it, and later than all of it. -/
inductive Grown (origin : Nat → History κ) : History κ → Prop
  | nil : Grown origin []
  | cons {n : Nat} {k : κ} {v : History κ} (hrest : Grown origin v) (horigin : origin n = (n, k) :: v)
    (hlater : ∀ e ∈ v, e.1 < n) : Grown origin ((n, k) :: v)

theorem Grown.origin_mem (h : Grown origin v) {e e' : Nat × κ} (he : e ∈ v) (he' : e' ∈ v) (hle : e'.1 ≤ e.1) :
    e' ∈ origin e.1 := by
  induction h with
  | nil => exact absurd he List.not_mem_nil
  | cons hrest horigin hlater ih =>
    rcases List.mem_cons.1 he with rfl | he
    · rw [horigin]
      exact he'
    · rcases List.mem_cons.1 he' with rfl | he'
      · exact absurd (hlater e he) (Nat.not_lt.2 hle)
      · exact ih he he'

theorem Grown.later (h : Grown origin v) : v.Pairwise fun e e' => e'.1 < e.1 := by
  induction h with
  | nil => exact .nil
  | cons hrest horigin hlater ih => exact List.pairwise_cons.2 ⟨hlater, ih⟩

theorem Grown.congr {origin' : Nat → History κ} (h : Grown origin v) (hsame : ∀ e ∈ v, origin' e.1 = origin e.1) :
    Grown origin' v := by
  induction h with
  | nil => exact .nil
  | cons hrest horigin hlater ih =>
    refine .cons (ih fun e he => hsame e (List.mem_cons_of_mem _ he)) ?_ hlater
    rw [← horigin]
    exact hsame _ List.mem_cons_self

/-- How the histories in a system hang together. What was saved last is what will be stored. -/
structure Tree (origin : Nat → History κ) (s : System ι κ (History κ) (History κ)) : Prop where
  grown : s.Each (Grown origin) (Grown origin)
  made : s.Each (fun v => ∀ e ∈ v, e.1 < s.made) fun v => ∀ e ∈ v, e.1 < s.made
  later : s.saves.Pairwise fun e e' => e'.1 < e.1
  saved : ∀ e ∈ s.saves, e.1 < s.made
  newest : ∀ e, s.saves.head? = some e → s.newest = origin e.1 ∧ e ∈ s.newest

/-- No change that was written is missing in what is stored in the end. -/
def Complete (s : System ι κ (History κ) (History κ)) : Prop := ∀ e ∈ s.saves, e ∈ s.newest

/-- What is written knows of all that was written before. -/
def Current (s : System ι κ (History κ) (History κ)) : Event ι κ → Prop
  | .save i _ => ∀ v, (s.party i).copy = some v → ∀ e ∈ s.saves, e ∈ v
  | _ => True

omit [DecidableEq ι] in
theorem newest_append (s : System ι κ α β) (w : ι × β) :
    newest { s with writes := s.writes ++ [w] } = w.2 := by
  rw [System.newest, List.getLast?_append, List.getLast?_singleton]
  rfl

omit [DecidableEq ι] in
theorem newest_apply (s : System ι κ α β) : s.apply.newest = s.newest := by
  rw [System.apply]
  split
  · rfl
  · next w ws hws =>
    rw [System.newest, System.newest, hws]
    cases ws with
    | nil => rfl
    | cons w' ws => rfl

/-- Only what is saved changes what is noted and what will be stored. -/
theorem step_saves (F : Format κ α β) (s : System ι κ α β) {e : Event ι κ}
    (hsave : ∀ i k, e = .save i k → (s.party i).copy = none) :
    (s.step F e).saves = s.saves ∧ (s.step F e).newest = s.newest := by
  cases e with
  | ask i => exact ⟨rfl, rfl⟩
  | fetch i =>
    rw [System.step, System.fetch]
    split
    · exact ⟨rfl, rfl⟩
    · exact ⟨rfl, rfl⟩
  | take i =>
    rw [System.step, System.take]
    split
    · exact ⟨rfl, rfl⟩
    · exact ⟨rfl, rfl⟩
  | change i k =>
    rw [System.step, System.change]
    split
    · exact ⟨rfl, rfl⟩
    · exact ⟨rfl, rfl⟩
  | save i k =>
    rw [System.step, System.save, hsave i k rfl]
    exact ⟨rfl, rfl⟩
  | apply =>
    refine ⟨?_, newest_apply s⟩
    rw [System.step, System.apply]
    split
    · rfl
    · rfl

theorem made_le (F : Format κ α β) (s : System ι κ α β) (e : Event ι κ) : s.made ≤ (s.step F e).made := by
  cases e with
  | ask i => exact Nat.le_refl _
  | fetch i =>
    rw [System.step, System.fetch]
    split
    · exact Nat.le_refl _
    · exact Nat.le_refl _
  | take i =>
    rw [System.step, System.take]
    split
    · exact Nat.le_refl _
    · exact Nat.le_refl _
  | change i k =>
    rw [System.step, System.change]
    split
    · exact Nat.le_refl _
    · exact Nat.le_succ _
  | save i k =>
    rw [System.step, System.save]
    split
    · exact Nat.le_refl _
    · exact Nat.le_succ _
  | apply =>
    rw [System.step, System.apply]
    split
    · exact Nat.le_refl _
    · exact Nat.le_refl _

theorem step_change {i : ι} {k : κ} (hv : (s.party i).copy = some v) : s.step history (.change i k) =
    { s.setParty i { s.party i with copy := some ((s.made, k) :: v) } with made := s.made + 1 } := by
  rw [System.step, System.change, hv]
  rfl

theorem step_save {i : ι} {k : κ} (hv : (s.party i).copy = some v) : s.step history (.save i k) =
    { s.setParty i { s.party i with copy := some ((s.made, k) :: v) } with
      writes := s.writes ++ [(i, (s.made, k) :: v)], made := s.made + 1, saves := (s.made, k) :: s.saves } := by
  rw [System.step, System.save, hv]
  rfl

theorem newest_save {i : ι} {k : κ} (hv : (s.party i).copy = some v) :
    (s.step history (.save i k)).newest = (s.made, k) :: v := by
  rw [step_save hv]
  exact newest_append (s.setParty i { s.party i with copy := some ((s.made, k) :: v) }) (i, (s.made, k) :: v)

/-- The only histories that a step adds are those of changed copies. -/
theorem Each.grow {P : History κ → Prop} {e : Event ι κ} (h : s.Each P P)
    (hnew : ∀ i k v, e = .change i k ∨ e = .save i k → (s.party i).copy = some v → P ((s.made, k) :: v)) :
    (s.step history e).Each P P :=
  h.step (fun _ hv => hv) (fun _ _ ht hv => Option.some.inj hv ▸ ht) hnew

omit [DecidableEq ι] in
theorem Each.mono {P Q : History κ → Prop} (h : s.Each P P) (hPQ : ∀ v, P v → Q v) : s.Each Q Q :=
  ⟨fun i v hv => hPQ v (h.copy i v hv), fun i v hv => hPQ v (h.fetched i v hv), hPQ _ h.stored,
    fun w hw => hPQ _ (h.writes w hw)⟩

omit [DecidableEq ι] in
theorem Each.both {P Q : History κ → Prop} (h : s.Each P P) (h' : s.Each Q Q) :
    s.Each (fun v => P v ∧ Q v) fun v => P v ∧ Q v :=
  ⟨fun i v hv => ⟨h.copy i v hv, h'.copy i v hv⟩, fun i v hv => ⟨h.fetched i v hv, h'.fetched i v hv⟩,
    ⟨h.stored, h'.stored⟩, fun w hw => ⟨h.writes w hw, h'.writes w hw⟩⟩

/-- A step that changes no copy leaves the tree as it is. -/
theorem Tree.still (h : Tree origin s) {e : Event ι κ}
    (hnone : ∀ i k, e = .change i k ∨ e = .save i k → (s.party i).copy = none) : Tree origin (s.step history e) := by
  have hkeeps : ∀ {P : History κ → Prop}, s.Each P P → (s.step history e).Each P P := by
    intro P hP
    refine hP.grow fun i k v he hv => ?_
    rw [hnone i k he] at hv
    cases hv
  have hmade := made_le history s e
  obtain ⟨hsaves, hnewest⟩ := step_saves history s fun i k he => hnone i k (.inr he)
  refine ⟨hkeeps h.grown, (hkeeps h.made).mono fun v hv e' he' => Nat.lt_of_lt_of_le (hv e' he') hmade, ?_, ?_, ?_⟩
  · rw [hsaves]
    exact h.later
  · rw [hsaves]
    exact fun e' he' => Nat.lt_of_lt_of_le (h.saved e' he') hmade
  · rw [hsaves, hnewest]
    exact h.newest

/-- The history that a change makes is the first one with it. -/
theorem Tree.grown_step (h : Tree origin s) {e : Event ι κ} {i : ι} {k : κ} (he : e = .change i k ∨ e = .save i k)
    (hv : (s.party i).copy = some v) :
    let origin' := fun n => if n = s.made then (s.made, k) :: v else origin n
    (s.step history e).Each (Grown origin') (Grown origin') ∧
      (s.step history e).Each (fun w => ∀ e' ∈ w, e'.1 < s.made + 1) fun w => ∀ e' ∈ w, e'.1 < s.made + 1 := by
  intro origin'
  have hnew : ∀ {P : History κ → Prop}, P ((s.made, k) :: v) → ∀ i' k' v', e = .change i' k' ∨ e = .save i' k' →
      (s.party i').copy = some v' → P ((s.made, k') :: v') := by
    intro P hP i' k' v' he' hv'
    have hsame : i' = i ∧ k' = k := by
      rcases he with rfl | rfl
      · rcases he' with he' | he'
        · cases he'
          exact ⟨rfl, rfl⟩
        · cases he'
      · rcases he' with he' | he'
        · cases he'
        · cases he'
          exact ⟨rfl, rfl⟩
    obtain ⟨rfl, rfl⟩ := hsame
    obtain rfl := Option.some.inj (hv.symm.trans hv')
    exact hP
  have hmade := h.made.copy i v hv
  constructor
  · have hold : ∀ w, Grown origin w ∧ (∀ e' ∈ w, e'.1 < s.made) → Grown origin' w := by
      rintro w ⟨hw, hlt⟩
      exact hw.congr fun e' he' => if_neg (Nat.ne_of_lt (hlt e' he'))
    exact ((h.grown.both h.made).mono hold).grow
      (hnew (.cons (hold v ⟨h.grown.copy i v hv, hmade⟩) (if_pos rfl) hmade))
  · have hbelow : ∀ e' ∈ (s.made, k) :: v, e'.1 < s.made + 1 := by
      intro e' he'
      rcases List.mem_cons.1 he' with rfl | he'
      · exact Nat.lt_succ_self _
      · exact Nat.lt_succ_of_lt (hmade e' he')
    exact (h.made.mono fun w hw e' he' => Nat.lt_succ_of_lt (hw e' he')).grow
      (hnew (P := fun w => ∀ e' ∈ w, e'.1 < s.made + 1) hbelow)

theorem Tree.step (h : Tree origin s) (e : Event ι κ) : ∃ origin', Tree origin' (s.step history e) := by
  by_cases hchange : ∃ i k v, (e = .change i k ∨ e = .save i k) ∧ (s.party i).copy = some v
  · obtain ⟨i, k, v, he, hv⟩ := hchange
    obtain ⟨hgrown, hmade⟩ := h.grown_step he hv
    refine ⟨fun n => if n = s.made then (s.made, k) :: v else origin n, ?_⟩
    rcases he with rfl | rfl
    · rw [step_change hv] at hgrown hmade ⊢
      refine ⟨hgrown, hmade, h.later, fun e he => Nat.lt_succ_of_lt (h.saved e he), fun e he => ?_⟩
      obtain ⟨hnewest, hmem⟩ := h.newest e he
      have hlt := h.saved e (List.mem_of_mem_head? he)
      exact ⟨hnewest.trans (if_neg (Nat.ne_of_lt hlt)).symm, hmem⟩
    · have hlast := newest_save (k := k) hv
      rw [step_save hv] at hgrown hmade hlast ⊢
      refine ⟨hgrown, hmade, List.pairwise_cons.2 ⟨h.saved, h.later⟩, fun e he => ?_, fun e he => ?_⟩
      · rcases List.mem_cons.1 he with rfl | he
        · exact Nat.lt_succ_self _
        · exact Nat.lt_succ_of_lt (h.saved e he)
      · cases he
        refine ⟨hlast.trans (if_pos rfl).symm, ?_⟩
        rw [hlast]
        exact List.mem_cons_self
  · refine ⟨origin, h.still fun i k he => ?_⟩
    cases hcopy : (s.party i).copy with
    | none => rfl
    | some v => exact absurd ⟨i, k, v, he, hcopy⟩ hchange

theorem Tree.run (h : Tree origin s) (es : List (Event ι κ)) :
    ∃ origin', Tree origin' (es.foldl (System.step history) s) := by
  induction es generalizing s origin with
  | nil => exact ⟨origin, h⟩
  | cons e es ih =>
    obtain ⟨origin', h'⟩ := h.step e
    exact ih h'

omit [DecidableEq ι] in
/-- A copy that knows of the last write knows of all that it knew. -/
theorem Tree.extends (h : Tree origin s) (hv : Grown origin v) (hall : ∀ e ∈ s.saves, e ∈ v) : Complete s := by
  intro e he
  cases hsaves : s.saves with
  | nil =>
    rw [hsaves] at he
    exact absurd he List.not_mem_nil
  | cons e₀ rest =>
    obtain ⟨hnewest, -⟩ := h.newest e₀ (by rw [hsaves]; rfl)
    have hlater := h.later
    rw [hsaves] at hall he hlater
    rw [hnewest]
    refine hv.origin_mem (hall e₀ List.mem_cons_self) (hall e he) ?_
    rcases List.mem_cons.1 he with rfl | he
    · exact Nat.le_refl _
    · exact Nat.le_of_lt ((List.pairwise_cons.1 hlater).1 e he)

/-- What a save leaves is complete just when the copy was current. -/
theorem Tree.complete_save (h : Tree origin s) {i : ι} {k : κ} (hv : (s.party i).copy = some v) :
    Complete (s.step history (.save i k)) ↔ ∀ e ∈ s.saves, e ∈ v := by
  rw [Complete, newest_save hv, step_save hv]
  constructor
  · intro hall e he
    rcases List.mem_cons.1 (hall e (List.mem_cons_of_mem _ he)) with rfl | he'
    · exact absurd (h.saved _ he) (Nat.lt_irrefl _)
    · exact he'
  · intro hall e he
    rcases List.mem_cons.1 he with rfl | he
    · exact List.mem_cons_self
    · exact List.mem_cons_of_mem _ (hall e he)

theorem Tree.complete_step (h : Tree origin s) (e : Event ι κ) :
    Complete (s.step history e) ↔ Complete s ∧ Current s e := by
  have hstill : (∀ i k, e = .save i k → (s.party i).copy = none) → (Complete (s.step history e) ↔ Complete s) := by
    intro hnone
    obtain ⟨hsaves, hnewest⟩ := step_saves history s hnone
    rw [Complete, Complete, hsaves, hnewest]
  cases e with
  | save i k =>
    cases hv : (s.party i).copy with
    | none =>
      have hcurrent : Current s (.save i k) := fun v hv' => absurd (hv.symm.trans hv') fun he => by cases he
      rw [hstill fun i' k' he => by cases he; exact hv]
      exact (and_iff_left hcurrent).symm
    | some v =>
      rw [h.complete_save hv]
      constructor
      · intro hall
        refine ⟨h.extends (h.grown.copy i v hv) hall, fun v' hv' => ?_⟩
        obtain rfl := Option.some.inj (hv.symm.trans hv')
        exact hall
      · exact fun hcurrent => hcurrent.2 v hv
  | ask i => exact (hstill fun i k he => by cases he).trans (and_iff_left trivial).symm
  | fetch i => exact (hstill fun i k he => by cases he).trans (and_iff_left trivial).symm
  | take i => exact (hstill fun i k he => by cases he).trans (and_iff_left trivial).symm
  | change i k => exact (hstill fun i k he => by cases he).trans (and_iff_left trivial).symm
  | apply => exact (hstill fun i k he => by cases he).trans (and_iff_left trivial).symm

/-- Of what was written nothing is lost just when each write came from a copy that knew of all writes before it. -/
theorem Tree.complete_iff (h : Tree origin s) (es : List (Event ι κ)) :
    Complete (es.foldl (System.step history) s) ↔ Complete s ∧ Runs.AllOk (System.step history) Current s es := by
  induction es generalizing s origin with
  | nil => exact (and_iff_left trivial).symm
  | cons e es ih =>
    obtain ⟨origin', h'⟩ := h.step e
    rw [List.foldl_cons, ih h', h.complete_step e, and_assoc]
    rfl

end History

/-! What the histories stand for. -/

/-- Nothing is read but by one party, which has what is stored. -/
def start (i : ι) (a : α) (b : β) : System ι κ α β where
  party j := { copy := if j = i then some a else none, asked := 0, fetched := [] }
  stored := b
  writes := []
  made := 0
  saves := []

def reading (F : Format κ α β) (a₀ : α) (s : System ι κ (History κ) (History κ)) : System ι κ α β where
  party i := (s.party i).reading F a₀
  stored := F.enc (replay F a₀ s.stored)
  writes := s.writes.map fun w => (w.1, F.enc (replay F a₀ w.2))
  made := s.made
  saves := s.saves

/-- The values that can be read as they were written, and the changes that lead from such a value to another. -/
structure Lawful (F : Format κ α β) (good : α → Prop) (ok : κ → Prop) (a₀ : α) : Prop where
  start : good a₀
  act : ∀ n k a, ok k → good a → good (F.act n k a)
  dec : ∀ a, good a → F.dec (F.enc a) = some a

def Labelled (ok : κ → Prop) (v : History κ) : Prop := ∀ e ∈ v, ok e.2

section Reading
variable {F : Format κ α β} {a₀ : α} {s : System ι κ (History κ) (History κ)} {good : α → Prop} {ok : κ → Prop}

theorem Lawful.replay (h : Lawful F good ok a₀) {v : History κ} (hv : Labelled ok v) : good (replay F a₀ v) := by
  induction v with
  | nil => exact h.start
  | cons e v ih =>
    obtain ⟨he, hrest⟩ := List.forall_mem_cons.1 hv
    exact h.act e.1 e.2 _ he (ih hrest)

theorem reading_setParty (i : ι) (p : Party (History κ) (History κ)) :
    (s.setParty i p).reading F a₀ = (s.reading F a₀).setParty i (p.reading F a₀) := by
  unfold reading setParty
  congr 1
  exact Function.comp_update (Party.reading F a₀) s.party i p

/-- A step of the histories is one of what they stand for. -/
theorem reading_step (h : Lawful F good ok a₀) (hs : s.Each (Labelled ok) (Labelled ok)) (e : Event ι κ) :
    (s.step history e).reading F a₀ = (s.reading F a₀).step F e := by
  cases e with
  | ask i => exact reading_setParty i _
  | fetch i =>
    rw [System.step, System.step, System.fetch, System.fetch]
    cases hasked : (s.party i).asked with
    | zero =>
      have hasked' : ((s.reading F a₀).party i).asked = 0 := hasked
      rw [hasked']
    | succ n =>
      have hasked' : ((s.reading F a₀).party i).asked = n + 1 := hasked
      have hfetched : ((s.party i).fetched ++ [s.stored]).map (fun v => F.enc (Copies.replay F a₀ v)) =
          ((s.reading F a₀).party i).fetched ++ [(s.reading F a₀).stored] := List.map_append
      rw [hasked']
      dsimp only
      rw [reading_setParty, ← hfetched]
      rfl
  | take i =>
    rw [System.step, System.step, System.take, System.take]
    cases hfetched : (s.party i).fetched with
    | nil =>
      have hfetched' : ((s.reading F a₀).party i).fetched = [] := by
        change (s.party i).fetched.map _ = _
        rw [hfetched]
        rfl
      rw [hfetched']
    | cons v vs =>
      have hfetched' : ((s.reading F a₀).party i).fetched = F.enc (Copies.replay F a₀ v) ::
          vs.map fun v => F.enc (Copies.replay F a₀ v) := by
        change (s.party i).fetched.map _ = _
        rw [hfetched]
        rfl
      have hv : Labelled ok v := hs.fetched i v (hfetched ▸ List.mem_cons_self)
      rw [hfetched']
      dsimp only
      rw [reading_setParty, h.dec _ (h.replay hv)]
      rfl
  | change i k =>
    rw [System.step, System.step, System.change, System.change]
    cases hcopy : (s.party i).copy with
    | none =>
      have hcopy' : ((s.reading F a₀).party i).copy = none := congrArg (Option.map _) hcopy
      rw [hcopy']
    | some v =>
      have hcopy' : ((s.reading F a₀).party i).copy = some (Copies.replay F a₀ v) := congrArg (Option.map _) hcopy
      rw [hcopy']
      have hset : (s.setParty i { s.party i with copy := some (history.act s.made k v) }).reading F a₀ = _ :=
        reading_setParty i _
      exact congrArg (fun r : System ι κ α β => { r with made := s.made + 1 }) hset
  | save i k =>
    rw [System.step, System.step, System.save, System.save]
    cases hcopy : (s.party i).copy with
    | none =>
      have hcopy' : ((s.reading F a₀).party i).copy = none := congrArg (Option.map _) hcopy
      rw [hcopy']
    | some v =>
      have hcopy' : ((s.reading F a₀).party i).copy = some (Copies.replay F a₀ v) := congrArg (Option.map _) hcopy
      rw [hcopy']
      have hset : (s.setParty i { s.party i with copy := some (history.act s.made k v) }).reading F a₀ = _ :=
        reading_setParty i _
      have hwrites : (s.writes ++ [(i, history.enc (history.act s.made k v))]).map
          (fun w => (w.1, F.enc (Copies.replay F a₀ w.2))) =
            (s.reading F a₀).writes ++ [(i, F.enc (F.act s.made k (Copies.replay F a₀ v)))] := List.map_append
      dsimp only
      have hall := congrArg (fun r : System ι κ α β => { r with
        writes := (s.reading F a₀).writes ++ [(i, F.enc (F.act s.made k (Copies.replay F a₀ v)))]
        made := s.made + 1
        saves := (s.made, k) :: s.saves }) hset
      refine Eq.trans ?_ hall
      unfold reading at hwrites ⊢
      simp only [hwrites]
  | apply =>
    rw [System.step, System.step, System.apply, System.apply]
    cases hwrites : s.writes with
    | nil =>
      have hwrites' : (s.reading F a₀).writes = [] := by
        change s.writes.map _ = _
        rw [hwrites]
        rfl
      rw [hwrites']
    | cons w ws =>
      have hwrites' : (s.reading F a₀).writes = (w.1, F.enc (Copies.replay F a₀ w.2)) ::
          ws.map fun w => (w.1, F.enc (Copies.replay F a₀ w.2)) := by
        change s.writes.map _ = _
        rw [hwrites]
        rfl
      rw [hwrites']
      rfl

theorem Each.labelled (hs : s.Each (Labelled ok) (Labelled ok)) {e : Event ι κ} (he : e.Labelled ok) :
    (s.step history e).Each (Labelled ok) (Labelled ok) := by
  refine hs.grow fun i k v hek hv => ?_
  have hk : ok k := by
    rcases hek with rfl | rfl
    · exact he
    · exact he
  exact List.forall_mem_cons.2 ⟨hk, hs.copy i v hv⟩

theorem Each.labelled_run (hs : s.Each (Labelled ok) (Labelled ok)) {es : List (Event ι κ)}
    (hes : ∀ e ∈ es, e.Labelled ok) : (es.foldl (System.step history) s).Each (Labelled ok) (Labelled ok) := by
  induction es generalizing s with
  | nil => exact hs
  | cons e es ih =>
    obtain ⟨he, hrest⟩ := List.forall_mem_cons.1 hes
    exact ih (hs.labelled he) hrest

/-- A whole run of the histories is one of what they stand for. -/
theorem reading_run (h : Lawful F good ok a₀) (hs : s.Each (Labelled ok) (Labelled ok)) {es : List (Event ι κ)}
    (hes : ∀ e ∈ es, e.Labelled ok) :
    (es.foldl (step history) s).reading F a₀ = es.foldl (step F) (s.reading F a₀) := by
  induction es generalizing s with
  | nil => rfl
  | cons e es ih =>
    obtain ⟨he, hrest⟩ := List.forall_mem_cons.1 hes
    rw [List.foldl_cons, List.foldl_cons, ih (hs.labelled he) hrest, reading_step h hs]

end Reading

end System
end Copies

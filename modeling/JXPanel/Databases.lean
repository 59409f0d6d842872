import JXPanel.Runs

namespace JXPanel
set_option autoImplicit true

/-- A request of the user between two calls of MongoDB. A database `user#n` stands as `n`. -/
inductive DbTask
  | addConnecting
  | addFinding
  | addListed (dbs : List Nat) (nextId : Nat)
  | adding (id : Nat)
  | removeConnecting (dbnames : List Nat)
  | removeFinding (dbnames : List Nat)
  | dropConnecting (dbname : Nat)
  | dropping (dbname : Nat)
  | removing (dbname : Nat)
deriving DecidableEq

/-- The databases of the user and his requests under way. -/
structure Databases where
  dbs : List Nat
  tasks : List DbTask

/-- A request comes in, or the call that a request waits for is made, and succeeds unless the
connection fails. -/
inductive DbStep
  | addDB
  | removeDB (dbnames : List Nat)
  | advance (i : Nat) (fails : Bool)

namespace Databases

def maxId (dbs : List Nat) : Nat := dbs.foldl (fun max_id id => if max_id < id then id else max_id) 0

/-- `maxDatabases` is `m`: one call of a request, with what it leaves of the databases and of the
request. -/
def call (m : Nat) (dbs : List Nat) : DbTask → List Nat × List DbTask
  | .addConnecting => (dbs, [.addFinding])
  | .addFinding => (dbs, [.addListed dbs (maxId dbs + 1)])
  | .addListed listed nextId => (dbs, if m ≤ listed.length then [] else [.adding nextId])
  | .adding id => (if id ∈ dbs then dbs else dbs ++ [id], [])
  | .removeConnecting dbnames => (dbs, [.removeFinding dbnames])
  | .removeFinding dbnames => (dbs, (dbnames.filter (· ∈ dbs)).map .dropConnecting)
  | .dropConnecting dbname => (dbs, [.dropping dbname])
  | .dropping dbname => (dbs, [.removing dbname])
  | .removing dbname => (dbs.erase dbname, [])

def step (m : Nat) (s : Databases) : DbStep → Databases
  | .addDB => { s with tasks := s.tasks ++ [.addConnecting] }
  | .removeDB dbnames =>
    if dbnames = [] then s else { s with tasks := s.tasks ++ [.removeConnecting dbnames] }
  | .advance i fails =>
    match s.tasks[i]? with
    | none => s
    | some t =>
      if fails then { s with tasks := s.tasks.eraseIdx i }
      else
        let r := call m s.dbs t
        ⟨r.1, s.tasks.eraseIdx i ++ r.2⟩

def pending (m : Nat) : DbTask → Option Nat
  | .addListed listed nextId => if m ≤ listed.length then none else some nextId
  | .adding id => some id
  | _ => none

def removed : DbTask → Option Nat
  | .removing dbname => some dbname
  | _ => none

/-- No database is removed that is the last one an addition under way has listed, or a later
one. -/
def SparesLast (m : Nat) (s : Databases) : DbStep → Prop
  | .advance i false => ∀ r ∈ s.tasks[i]?, ∀ x ∈ removed r, ∀ t ∈ s.tasks, ∀ n ∈ pending m t, x + 1 < n
  | _ => True

instance (m : Nat) (s : Databases) (c : DbStep) : Decidable (SparesLast m s c) :=
  match c with
  | .addDB => inferInstanceAs (Decidable True)
  | .removeDB _ => inferInstanceAs (Decidable True)
  | .advance _ true => inferInstanceAs (Decidable True)
  | .advance i false => inferInstanceAs (Decidable (∀ r ∈ s.tasks[i]?, ∀ x ∈ removed r, ∀ t ∈ s.tasks,
      ∀ n ∈ pending m t, x + 1 < n))

/-- What a number to add still has about it when the databases have changed. -/
structure Fresh (m : Nat) (dbs : List Nat) (n : Nat) : Prop where
  pos : 0 < n
  room : (dbs.filter (· < n)).length < m
  first : ∀ x ∈ dbs, n ≤ x → n ∈ dbs
  next : n = 1 ∨ n - 1 ∈ dbs

structure Within (m : Nat) (s : Databases) : Prop where
  nodup : s.dbs.Nodup
  limit : s.dbs.length ≤ m
  fresh : ∀ t ∈ s.tasks, ∀ n ∈ pending m t, Fresh m s.dbs n

def calls (i k : Nat) : List DbStep := List.replicate k (.advance i false)

variable {m n x : Nat} {dbs : List Nat} {s : Databases}

theorem foldl_max (dbs : List Nat) (a : Nat) :
    dbs.foldl (fun max_id id => if max_id < id then id else max_id) a = dbs.foldl max a := by
  induction dbs generalizing a with
  | nil => rfl
  | cons x dbs ih =>
    have hstep : (if a < x then x else a) = max a x := by
      split <;> omega
    rw [List.foldl_cons, List.foldl_cons, ih, hstep]

theorem foldl_max_spec (dbs : List Nat) (a : Nat) :
    a ≤ dbs.foldl max a ∧ (∀ x ∈ dbs, x ≤ dbs.foldl max a) ∧
      (dbs.foldl max a = a ∨ dbs.foldl max a ∈ dbs) := by
  induction dbs generalizing a with
  | nil => exact ⟨le_refl a, fun x hx => absurd hx List.not_mem_nil, .inl rfl⟩
  | cons x dbs ih =>
    obtain ⟨hle, hall, hmem⟩ := ih (max a x)
    rw [List.foldl_cons]
    refine ⟨le_trans (le_max_left a x) hle, ?_, ?_⟩
    · intro y hy
      rcases List.mem_cons.1 hy with rfl | hy
      · exact le_trans (le_max_right a y) hle
      · exact hall y hy
    · rcases hmem with he | hmem
      · rcases max_choice a x with hm | hm
        · exact .inl (he.trans hm)
        · exact .inr (List.mem_cons.2 (.inl (he.trans hm)))
      · exact .inr (List.mem_cons_of_mem x hmem)

theorem le_maxId (hx : x ∈ dbs) : x ≤ maxId dbs := by
  rw [maxId, foldl_max]
  exact (foldl_max_spec dbs 0).2.1 x hx

theorem maxId_mem : maxId dbs = 0 ∨ maxId dbs ∈ dbs := by
  rw [maxId, foldl_max]
  exact (foldl_max_spec dbs 0).2.2

/-- The number next to the greatest is fresh when it is read. -/
theorem fresh_of_listing (h : dbs.length < m) : Fresh m dbs (maxId dbs + 1) := by
  refine ⟨Nat.succ_pos _, ?_, ?_, ?_⟩
  · exact lt_of_le_of_lt (List.length_filter_le _ dbs) h
  · intro x hx hle
    exact absurd (le_maxId hx) (Nat.not_le.2 hle)
  · rcases maxId_mem with h0 | hmem
    · left
      rw [h0]
    · right
      exact hmem

theorem Fresh.lt (h : Fresh m dbs n) (hn : n ∉ dbs) (hx : x ∈ dbs) : x < n := by
  by_contra hle
  exact hn (h.first x hx (Nat.not_lt.1 hle))

theorem Fresh.length_lt (h : Fresh m dbs n) (hn : n ∉ dbs) : dbs.length < m := by
  have hall : dbs.filter (· < n) = dbs := by
    apply List.filter_eq_self.2
    intro x hx
    exact decide_eq_true (h.lt hn hx)
  have hroom := h.room
  rwa [hall] at hroom

/-- A fresh number stays fresh when another one is added. -/
theorem Fresh.add {k : Nat} (h : Fresh m dbs n) (hk : Fresh m dbs k) (hnew : k ∉ dbs) :
    Fresh m (dbs ++ [k]) n := by
  refine ⟨h.pos, ?_, ?_, ?_⟩
  · have hkn : ¬k < n := by
      intro hlt
      rcases h.next with h1 | hmem
      · have hpos := hk.pos
        omega
      · have hbelow := hk.lt hnew hmem
        omega
    rw [List.filter_append, List.filter_singleton, decide_eq_false hkn, cond_false, List.append_nil]
    exact h.room
  · intro x hx hle
    rcases List.mem_append.1 hx with hx | hx
    · exact List.mem_append_left _ (h.first x hx hle)
    · rw [List.mem_singleton.1 hx] at hle
      by_cases hkn : n = k
      · rw [hkn]
        exact List.mem_append_right _ (List.mem_singleton_self k)
      · rcases hk.next with h1 | hmem
        · have hpos := h.pos
          omega
        · exact List.mem_append_left _ (h.first (k - 1) hmem (by omega))
  · exact h.next.imp_right (List.mem_append_left _)

/-- A fresh number stays fresh when one below the last one listed is removed. -/
theorem Fresh.remove (h : Fresh m dbs n) (hx : x + 1 < n) : Fresh m (dbs.erase x) n := by
  have hkept : ∀ y ∈ dbs, y ≠ x → y ∈ dbs.erase x := fun y hy hne => (List.mem_erase_of_ne hne).2 hy
  refine ⟨h.pos, ?_, ?_, ?_⟩
  · exact lt_of_le_of_lt (List.Sublist.filter _ List.erase_sublist).length_le h.room
  · intro y hy hle
    exact hkept n (h.first y (List.mem_of_mem_erase hy) hle) (by omega)
  · exact h.next.imp_right fun hmem => hkept (n - 1) hmem (by omega)

/-- What a call leaves of a request is pending only with a number that is fresh. -/
theorem fresh_call {t t' : DbTask} (ht : ∀ n ∈ pending m t, Fresh m dbs n)
    (ht' : t' ∈ (call m dbs t).2) : ∀ n ∈ pending m t', Fresh m (call m dbs t).1 n := by
  intro n hn
  cases t with
  | addConnecting =>
    rw [List.mem_singleton.1 ht'] at hn
    cases hn
  | addFinding =>
    rw [List.mem_singleton.1 ht', pending] at hn
    split at hn
    · cases hn
    · rename_i hlt
      rw [← Option.some.inj hn]
      exact fresh_of_listing (Nat.not_le.1 hlt)
  | addListed listed nextId =>
    rw [call] at ht'
    dsimp only at ht'
    split at ht'
    · cases ht'
    · rename_i hlt
      rw [List.mem_singleton.1 ht'] at hn
      apply ht n
      rw [pending, if_neg hlt]
      exact hn
  | adding id => cases ht'
  | removeConnecting dbnames =>
    rw [List.mem_singleton.1 ht'] at hn
    cases hn
  | removeFinding dbnames =>
    obtain ⟨y, -, rfl⟩ := List.mem_map.1 ht'
    cases hn
  | dropConnecting dbname =>
    rw [List.mem_singleton.1 ht'] at hn
    cases hn
  | dropping dbname =>
    rw [List.mem_singleton.1 ht'] at hn
    cases hn
  | removing dbname => cases ht'

/-- A call that removes no database that a number to add counts on leaves the numbers of the
other requests fresh. -/
theorem fresh_kept {t : DbTask} (ht : ∀ k ∈ pending m t, Fresh m dbs k)
    (hok : ∀ x, t = .removing x → x + 1 < n) (h : Fresh m dbs n) : Fresh m (call m dbs t).1 n := by
  cases t with
  | adding id =>
    rw [call]
    split
    · exact h
    · rename_i hnew
      exact h.add (ht id rfl) hnew
  | removing dbname => exact h.remove (hok dbname rfl)
  | _ => exact h

theorem nodup_call {t : DbTask} (h : dbs.Nodup) : (call m dbs t).1.Nodup := by
  cases t with
  | adding id =>
    rw [call]
    split
    · exact h
    · rename_i hnew
      exact List.nodup_append_comm.1 (List.nodup_cons.2 ⟨hnew, h⟩)
  | removing dbname => exact h.erase dbname
  | _ => exact h

/-- A fresh number that is added was not there, so that there was room for it. -/
theorem length_call {t : DbTask} (ht : ∀ n ∈ pending m t, Fresh m dbs n) (h : dbs.length ≤ m) :
    (call m dbs t).1.length ≤ m := by
  cases t with
  | adding id =>
    rw [call]
    split
    · exact h
    · rename_i hnew
      rw [List.length_append, List.length_singleton]
      exact (ht id rfl).length_lt hnew
  | removing dbname => exact le_trans (List.erase_sublist).length_le h
  | _ => exact h

theorem Within.step (h : Within m s) (c : DbStep) (hok : SparesLast m s c) :
    Within m (step m s c) := by
  cases c with
  | addDB =>
    refine ⟨h.nodup, h.limit, fun t ht n hn => ?_⟩
    rcases List.mem_append.1 ht with ht | ht
    · exact h.fresh t ht n hn
    · rw [List.mem_singleton.1 ht] at hn
      cases hn
  | removeDB dbnames =>
    rw [Databases.step]
    split
    · exact h
    · refine ⟨h.nodup, h.limit, fun t ht n hn => ?_⟩
      rcases List.mem_append.1 ht with ht | ht
      · exact h.fresh t ht n hn
      · rw [List.mem_singleton.1 ht] at hn
        cases hn
  | advance i fails =>
    rw [Databases.step]
    cases hi : s.tasks[i]? with
    | none => exact h
    | some t =>
      have hold : ∀ t' ∈ s.tasks.eraseIdx i, t' ∈ s.tasks := fun t' ht' =>
        (List.eraseIdx_sublist s.tasks i).subset ht'
      have ht : ∀ n ∈ pending m t, Fresh m s.dbs n := h.fresh t (List.mem_of_getElem? hi)
      cases fails with
      | true => exact ⟨h.nodup, h.limit, fun t' ht' => h.fresh t' (hold t' ht')⟩
      | false =>
        refine ⟨nodup_call h.nodup, length_call ht h.limit, fun t' ht' n hn => ?_⟩
        rcases List.mem_append.1 ht' with ht' | ht'
        · apply fresh_kept ht _ (h.fresh t' (hold t' ht') n hn)
          intro x hx
          apply hok t hi x _ t' (hold t' ht') n hn
          rw [hx]
          rfl
        · exact fresh_call ht ht' n hn

/-- In a run that spares the last databases that additions have listed, the databases stay within
the limit and have names of their own, and a removal takes away the one it is for. -/
theorem within_limit {start : Databases} (hnodup : start.dbs.Nodup) (hlimit : start.dbs.length ≤ m)
    (hidle : start.tasks = []) (h : Runs.Reached (step m) start (SparesLast m) s) :
    s.dbs.Nodup ∧ s.dbs.length ≤ m ∧ ∀ i x, s.tasks[i]? = some (.removing x) →
      ∀ y, y ∈ (step m s (.advance i false)).dbs ↔ y ∈ s.dbs ∧ y ≠ x := by
  have hstart : Within m start := by
    refine ⟨hnodup, hlimit, fun t ht => ?_⟩
    rw [hidle] at ht
    cases ht
  have hs : Within m s := h.keeps hstart fun s c hs hok => hs.step c hok
  refine ⟨hs.nodup, hs.limit, fun i x hi y => ?_⟩
  rw [step]
  simp only [hi, Bool.false_eq_true, if_false, call]
  exact hs.nodup.mem_erase_iff.trans and_comm

/-- Two additions that have both read that the user has no databases, and a removal of the one
that is added. -/
theorem within_limit_sample :
    ((calls 0 8 ++ [DbStep.removeDB [1]] ++ calls 0 5).foldl (step 1)
      ([DbStep.addDB, .addDB].foldl (step 1) ⟨[], []⟩)).dbs.length ≤ 1 := by
  rw [← List.foldl_append]
  have hstart : Databases.tasks ⟨[], []⟩ = [] := rfl
  apply (within_limit List.nodup_nil (Nat.zero_le 1) hstart _).2.1
  apply Runs.Reached.run .start
  decide

/-- While one addition waits with the number 2, the databases 1 and 2 are removed and two others
are added within the limit of 2. -/
theorem limit_exceeded : ¬∀ (m : Nat) (s : Databases),
    Runs.Reached (step m) ⟨[], []⟩ (fun _ _ => True) s →
      s.dbs.Nodup ∧ s.dbs.length ≤ m ∧ ∀ i x, s.tasks[i]? = some (.removing x) →
        ∀ y, y ∈ (step m s (.advance i false)).dbs ↔ y ∈ s.dbs ∧ y ≠ x := by
  intro h
  have hrun : Runs.Reached (step 2) ⟨[], []⟩ (fun _ _ => True)
      (([DbStep.addDB] ++ calls 0 4 ++ [DbStep.addDB] ++ calls 0 3 ++ [DbStep.addDB] ++ calls 1 4 ++
        [DbStep.removeDB [1]] ++ calls 1 5 ++ [DbStep.addDB] ++ calls 1 4 ++ [DbStep.removeDB [2]] ++
        calls 1 5 ++ [DbStep.addDB] ++ calls 1 4 ++ calls 0 1).foldl (step 2) ⟨[], []⟩) := by
    apply Runs.Reached.run .start
    decide
  have hlen := (h 2 _ hrun).2.1
  revert hlen
  decide

end Databases
end JXPanel

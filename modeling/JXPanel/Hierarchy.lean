import Mathlib

set_option autoImplicit true

/-! Counting down a hierarchy given by its children against climbing it by its parents. -/

namespace Hierarchy
variable {α : Type}

/-- The nodes met when going down less than `n` steps, once for each way down. -/
def descend (kids : α → List α) : Nat → α → List α
  | 0, _ => []
  | n + 1, p => p :: (kids p).flatMap (descend kids n)

/-- The sum of the weights of the nodes met when going down. -/
def weight (kids : α → List α) (w : α → Nat) : Nat → α → Nat
  | 0, _ => 0
  | n + 1, p => w p + ((kids p).map (weight kids w n)).sum

/-- The nodes met when climbing less than `n` steps. -/
def climb (parent : α → Option α) : Nat → α → List α
  | 0, _ => []
  | n + 1, x => x :: ((parent x).map (climb parent n)).getD []

/-- A way down of `n` steps. -/
def Deep (kids : α → List α) : Nat → α → Prop
  | 0, _ => True
  | n + 1, p => ∃ q ∈ kids p, Deep kids n q

/-- Climbing ends in less than `n` steps. -/
def Ends (parent : α → Option α) : Nat → α → Prop
  | 0, _ => False
  | n + 1, x => ∀ y, parent x = some y → Ends parent n y

theorem weight_eq (kids : α → List α) (w : α → Nat) (n : Nat) (p : α) :
    weight kids w n p = ((descend kids n p).map w).sum := by
  induction n generalizing p with
  | zero => rfl
  | succ n ih =>
    rw [weight, descend, List.map_cons, List.sum_cons, List.map_flatMap]
    congr 1
    induction kids p with
    | nil => rfl
    | cons q qs ihq => rw [List.map_cons, List.sum_cons, List.flatMap_cons, List.sum_append, ih, ihq]

section Count
variable [DecidableEq α] {kids : α → List α} {parent : α → Option α}

theorem climb_succ_count (n : Nat) (p x : α) :
    (climb parent (n + 1) x).count p =
      ((((parent x).map (climb parent n)).getD []).count p + if x = p then 1 else 0) := by
  simp only [climb, List.count_cons, beq_iff_eq]

/-- A child of `p` is met on the climb from `x` only right before `p`. -/
theorem children_on_climb (hn : ∀ p, (kids p).Nodup)
    (hp : ∀ p x, x ∈ kids p → parent x = some p) (n : Nat) (p x : α) :
    ((kids p).map (fun q => (climb parent n x).count q)).sum ≤
      (((parent x).map (climb parent n)).getD []).count p := by
  induction n generalizing x with
  | zero => simp [climb]
  | succ n ih =>
    have hsum : ((kids p).map (fun q => (climb parent (n + 1) x).count q)).sum =
        ((kids p).map (fun q => (((parent x).map (climb parent n)).getD []).count q)).sum +
          (kids p).count x := by
      simp only [climb_succ_count, List.sum_map_add]
      congr 1
      induction kids p with
      | nil => rfl
      | cons q qs ihq => simp only [List.map_cons, List.sum_cons, List.count_cons, ihq, beq_iff_eq,
          eq_comm (a := q), Nat.add_comm]
    rw [hsum]
    cases hx : parent x with
    | none =>
      have hnot : x ∉ kids p := fun h => by simp [hp p x h] at hx
      simp [List.count_eq_zero_of_not_mem hnot]
    | some y =>
      have hcount : (kids p).count x ≤ if y = p then 1 else 0 := by
        by_cases hm : x ∈ kids p
        · have hy : y = p := Option.some.inj (hx.symm.trans (hp p x hm))
          rw [if_pos hy]
          exact List.nodup_iff_count_le_one.1 (hn p) x
        · simp [List.count_eq_zero_of_not_mem hm]
      have hih := ih y
      simp only [Option.map_some, Option.getD_some] at hih ⊢
      rw [climb_succ_count]
      omega

/-- There are at most as many ways down from `p` to `x` as times the climb from `x` meets `p`. -/
theorem count_descend_le (hn : ∀ p, (kids p).Nodup)
    (hp : ∀ p x, x ∈ kids p → parent x = some p) (n : Nat) (p x : α) :
    (descend kids n p).count x ≤ (climb parent n x).count p := by
  induction n generalizing p with
  | zero => simp [descend]
  | succ n ih =>
    have hdown : (descend kids (n + 1) p).count x ≤
        ((kids p).map (fun q => (climb parent n x).count q)).sum + if x = p then 1 else 0 := by
      simp only [descend, List.count_cons, beq_iff_eq, eq_comm (a := p), List.count_flatMap]
      exact Nat.add_le_add_right (List.sum_le_sum fun q _ => ih q) _
    have hup := children_on_climb hn hp n p x
    rw [climb_succ_count]
    omega

/-- Raising the weight of one node by one raises a sum by the number of ways down to it. -/
theorem weight_bump {w w' : α → Nat} {x : α} (hw : ∀ p, w' p ≤ w p + if p = x then 1 else 0)
    (n : Nat) (p : α) : weight kids w' n p ≤ weight kids w n p + (descend kids n p).count x := by
  rw [weight_eq, weight_eq]
  induction descend kids n p with
  | nil => simp
  | cons q qs ih =>
    have hq := hw q
    simp only [List.map_cons, List.sum_cons, List.count_cons, beq_iff_eq]
    omega

end Count

theorem Ends.mono {parent : α → Option α} {n : Nat} {x : α} (h : Ends parent n x) {m : Nat}
    (hnm : n ≤ m) : Ends parent m x := by
  induction n generalizing x m with
  | zero => exact h.elim
  | succ n ih =>
    obtain ⟨m, rfl⟩ := Nat.exists_eq_add_of_le' (Nat.le_trans (Nat.le_add_left 1 n) hnm)
    exact fun y hy => ih (h y hy) (by omega)

theorem Ends.climb_eq {parent : α → Option α} {n : Nat} {x : α} (h : Ends parent n x) {m : Nat}
    (hnm : n ≤ m) : climb parent m x = climb parent n x := by
  induction n generalizing x m with
  | zero => exact h.elim
  | succ n ih =>
    obtain ⟨m, rfl⟩ := Nat.exists_eq_add_of_le' (Nat.le_trans (Nat.le_add_left 1 n) hnm)
    rw [climb, climb]
    cases hx : parent x with
    | none => rfl
    | some y => simp only [Option.map_some, ih (h y hx) (show n ≤ m by omega)]

theorem Ends.of_mem {parent : α → Option α} {n m : Nat} {x y : α} (h : Ends parent n x)
    (hy : y ∈ climb parent m x) : Ends parent n y := by
  induction m generalizing n x with
  | zero => exact absurd hy List.not_mem_nil
  | succ m ih =>
    cases n with
    | zero => exact h.elim
    | succ n =>
      rw [climb] at hy
      rcases List.mem_cons.1 hy with rfl | hy
      · exact h
      · cases hx : parent x with
        | none => simp [hx] at hy
        | some z =>
          rw [hx] at hy
          exact (ih (h z hx) hy).mono (Nat.le_succ n)

/-- A climb that ends never comes back to where it was. -/
theorem Ends.not_back {parent : α → Option α} {n m : Nat} {x y : α} (h : Ends parent n x)
    (hxy : parent x = some y) : x ∉ climb parent m y := by
  induction n generalizing x y with
  | zero => exact h.elim
  | succ n ih =>
    intro hm
    have hx : Ends parent n x := (h y hxy).of_mem hm
    exact ih hx hxy hm

theorem Ends.climb_nodup {parent : α → Option α} {n m : Nat} {x : α} (h : Ends parent n x) :
    (climb parent m x).Nodup := by
  induction m generalizing n x with
  | zero => exact List.nodup_nil
  | succ m ih =>
    cases n with
    | zero => exact h.elim
    | succ n =>
      rw [climb]
      cases hx : parent x with
      | none => simp
      | some y => exact List.nodup_cons.2 ⟨h.not_back hx, ih (h y hx)⟩

theorem ends_of_length {parent : α → Option α} {n : Nat} {x : α} (h : (climb parent n x).length < n) : Ends parent n x := by
  induction n generalizing x with
  | zero => exact absurd h (Nat.not_lt_zero _)
  | succ n ih =>
    intro y hy
    rw [climb, hy, List.length_cons, Option.map_some, Option.getD_some] at h
    exact ih (Nat.lt_of_succ_lt_succ h)

/-- A climb that ends meets what the parents lead to. -/
theorem Ends.mem_climb_iff {parent : α → Option α} {n : Nat} {x y : α} (h : Ends parent n x) :
    y ∈ climb parent n x ↔ Relation.ReflTransGen (fun a b => parent a = some b) x y := by
  induction n generalizing x with
  | zero => exact h.elim
  | succ n ih =>
    rw [climb, List.mem_cons, Relation.ReflTransGen.cases_head_iff]
    cases hx : parent x with
    | none =>
      constructor
      · rintro (rfl | hy)
        · exact .inl rfl
        · exact absurd hy List.not_mem_nil
      · rintro (rfl | ⟨z, hz, -⟩)
        · exact .inl rfl
        · cases hz
    | some z =>
      rw [Option.map_some, Option.getD_some, ih (h z hx)]
      constructor
      · rintro (rfl | hy)
        · exact .inl rfl
        · exact .inr ⟨z, rfl, hy⟩
      · rintro (rfl | ⟨w, hw, hy⟩)
        · exact .inl rfl
        · cases hw
          exact .inr hy

/-- A node whose climb ends is at the start of no endless climb. -/
theorem Ends.acc {parent : α → Option α} {n : Nat} {x : α} (h : Ends parent n x) :
    Acc (fun y x => parent x = some y) x := by
  induction n generalizing x with
  | zero => exact h.elim
  | succ n ih =>
    apply Acc.intro
    intro y hy
    exact ih (h y hy)

/-- A climb that ends takes no more steps than there are nodes with a parent. -/
theorem Ends.bound [DecidableEq α] {parent : α → Option α} {n : Nat} {x : α}
    (h : Ends parent n x) (nodes : List α) (hm : ∀ m y, y ∈ climb parent m x → (parent y).isSome → y ∈ nodes) :
    Ends parent (nodes.length + 1) x := by
  induction n generalizing x nodes with
  | zero => exact h.elim
  | succ n ih =>
    intro y hy
    have hx : x ∈ nodes := hm 1 x List.mem_cons_self (by rw [hy]; rfl)
    have hrest : ∀ m z, z ∈ climb parent m y → (parent z).isSome → z ∈ nodes.erase x := by
      intro m z hz hp
      have hne : z ≠ x := by
        intro he
        exact h.not_back hy (he ▸ hz)
      apply (List.mem_erase_of_ne hne).2
      apply hm (m + 1) z _ hp
      rw [climb, hy]
      exact List.mem_cons_of_mem _ hz
    have hlen := List.length_erase_of_mem hx
    have hpos := List.length_pos_of_mem hx
    exact (ih (h y hy) _ hrest).mono (by omega)

section Redirect
variable {parent parent' : α → Option α} {y : α} {moved : α → Prop}
  (h : ∀ x, ∃ n, Ends parent n x)
  (hstep : ∀ x z, parent' x = some z → parent x = some z ∨ (z = y ∧ moved x))
include hstep

theorem Ends.avoids {n : Nat} {x : α} (h : Ends parent n x)
    (hx : ∀ m, ∀ z ∈ climb parent m x, ¬ moved z) : Ends parent' n x := by
  induction n generalizing x with
  | zero => exact h.elim
  | succ n ih =>
    intro z hz
    rcases hstep x z hz with hp | ⟨-, hm⟩
    · apply ih (h z hp)
      intro m w hw
      apply hx (m + 1) w
      rw [climb, hp]
      exact List.mem_cons_of_mem _ hw
    · exact (hx 1 x List.mem_cons_self hm).elim

include h

/-- Nodes may be moved below a node that is not itself below one of them. -/
theorem ends_redirect (hy : ∀ m, ∀ z ∈ climb parent m y, ¬ moved z) (x : α) :
    ∃ n, Ends parent' n x := by
  obtain ⟨k, hk⟩ := h y
  have hyk : Ends parent' k y := hk.avoids hstep hy
  have hall : ∀ n x, Ends parent n x → Ends parent' (n + k) x := by
    intro n
    induction n with
    | zero => exact fun _ hx => hx.elim
    | succ n ih =>
      intro x hx
      rw [Nat.succ_add]
      intro z hz
      rcases hstep x z hz with hp | ⟨rfl, -⟩
      · exact ih z (hx z hp)
      · exact hyk.mono (Nat.le_add_left k n)
  obtain ⟨n, hn⟩ := h x
  exact ⟨n + k, hall n x hn⟩

end Redirect

/-- Fewer and lighter children: the sums do not grow. -/
theorem weight_mono {kids kids' : α → List α} {w w' : α → Nat}
    (hk : ∀ p, (kids' p).Sublist (kids p)) (hw : ∀ p, w' p ≤ w p) (n : Nat) (p : α) :
    weight kids' w' n p ≤ weight kids w n p := by
  induction n generalizing p with
  | zero => exact Nat.le_refl _
  | succ n ih =>
    have h₁ : ((kids' p).map (weight kids' w' n)).sum ≤ ((kids' p).map (weight kids w n)).sum :=
      List.sum_le_sum fun q _ => ih q
    have h₂ : ((kids' p).map (weight kids w n)).sum ≤ ((kids p).map (weight kids w n)).sum :=
      ((hk p).map _).sum_le_sum fun _ _ => Nat.zero_le _
    exact Nat.add_le_add (hw p) (h₁.trans h₂)

theorem weight_succ_le (kids : α → List α) (w : α → Nat) (n : Nat) (p : α) :
    weight kids w n p ≤ weight kids w (n + 1) p := by
  induction n generalizing p with
  | zero => exact Nat.zero_le _
  | succ n ih => exact Nat.add_le_add_left (List.sum_le_sum fun q _ => ih q) _

theorem weight_le_of_le (kids : α → List α) (w : α → Nat) {n m : Nat} (h : n ≤ m) (p : α) :
    weight kids w n p ≤ weight kids w m p := by
  induction h with
  | refl => exact Nat.le_refl _
  | step _ ih => exact ih.trans (weight_succ_le kids w _ p)

/-- Beyond the depth of the hierarchy the sums no longer change. -/
theorem weight_stable {kids : α → List α} (w : α → Nat) {n : Nat} {p : α}
    (h : ¬ Deep kids n p) {m : Nat} (hnm : n ≤ m) : weight kids w m p = weight kids w n p := by
  induction n generalizing p m with
  | zero => exact (h trivial).elim
  | succ n ih =>
    obtain ⟨m, rfl⟩ := Nat.exists_eq_add_of_le' (Nat.le_trans (Nat.le_add_left 1 n) hnm)
    rw [weight, weight]
    congr 2
    exact List.map_congr_left fun q hq => ih (fun hd => h ⟨q, hq, hd⟩) (by omega)

/-- Along a way down the rank grows, so the way is no longer than there are nodes. -/
theorem Deep.bound {kids : α → List α} {nodes : List α} {rank : α → Nat}
    (hr : ∀ p q, q ∈ kids p → rank p < rank q) (hm : ∀ p q, q ∈ kids p → q ∈ nodes)
    {n : Nat} {p : α} (h : Deep kids n p) (hp : p ∈ nodes) : n + 1 ≤ nodes.length := by
  have path : ∀ n p, Deep kids n p → p ∈ nodes →
      ∃ l : List α, l.length = n + 1 ∧ l.Nodup ∧ (∀ x ∈ l, x ∈ nodes) ∧ ∀ x ∈ l, rank p ≤ rank x := by
    intro n
    induction n with
    | zero => exact fun p _ hp => ⟨[p], rfl, by simp, by simpa using hp, by simp⟩
    | succ n ih =>
      rintro p ⟨q, hq, hd⟩ hp
      obtain ⟨l, hl, hnd, hsub, hrank⟩ := ih q hd (hm p q hq)
      have hlt := hr p q hq
      refine ⟨p :: l, by simp [hl], List.nodup_cons.2 ⟨fun hpl => ?_, hnd⟩, ?_, ?_⟩
      · have := hrank p hpl
        omega
      · simpa [hp] using hsub
      · intro x hx
        rcases List.mem_cons.1 hx with rfl | hx
        · exact Nat.le_refl _
        · exact (Nat.le_of_lt hlt).trans (hrank x hx)
  obtain ⟨l, hl, hnd, hsub, -⟩ := path n p h hp
  exact hl ▸ (List.subperm_of_subset hnd hsub).length_le

theorem mem_descend_succ {kids : α → List α} {n : Nat} {p x : α} :
    x ∈ descend kids (n + 1) p ↔ x = p ∨ ∃ q ∈ kids p, x ∈ descend kids n q := by
  rw [descend, List.mem_cons, List.mem_flatMap]

theorem self_mem_descend {kids : α → List α} {n : Nat} (hn : 0 < n) (p : α) :
    p ∈ descend kids n p := by
  obtain ⟨n, rfl⟩ := Nat.exists_eq_add_of_le' hn
  exact mem_descend_succ.2 (.inl rfl)

/-- Whatever is met below the start is a child of something met one step earlier. -/
theorem parent_mem_descend {kids : α → List α} {n : Nat} {p x : α}
    (h : x ∈ descend kids (n + 1) p) : x = p ∨ ∃ q ∈ descend kids n p, x ∈ kids q := by
  induction n generalizing p with
  | zero =>
    rcases mem_descend_succ.1 h with rfl | ⟨q, -, hx⟩
    · exact .inl rfl
    · exact absurd hx List.not_mem_nil
  | succ n ih =>
    rcases mem_descend_succ.1 h with rfl | ⟨q, hq, hx⟩
    · exact .inl rfl
    · rcases ih hx with rfl | ⟨r, hr, hxr⟩
      · exact .inr ⟨p, mem_descend_succ.2 (.inl rfl), hq⟩
      · exact .inr ⟨r, mem_descend_succ.2 (.inr ⟨q, hq, hr⟩), hxr⟩

theorem descend_subset {kids : α → List α} {n m : Nat} (h : n ≤ m) (p : α) :
    descend kids n p ⊆ descend kids m p := by
  induction n generalizing m p with
  | zero => exact List.nil_subset _
  | succ n ih =>
    obtain ⟨m, rfl⟩ := Nat.exists_eq_add_of_le' (Nat.le_trans (Nat.le_add_left 1 n) h)
    intro x hx
    rcases mem_descend_succ.1 hx with rfl | ⟨q, hq, hxq⟩
    · exact mem_descend_succ.2 (.inl rfl)
    · exact mem_descend_succ.2 (.inr ⟨q, hq, ih (show n ≤ m by omega) q hxq⟩)

theorem kid_mem_descend_succ {kids : α → List α} {n : Nat} {p q x : α}
    (hq : q ∈ descend kids n p) (hx : x ∈ kids q) : x ∈ descend kids (n + 1) p := by
  induction n generalizing p with
  | zero => exact absurd hq List.not_mem_nil
  | succ n ih =>
    rcases mem_descend_succ.1 hq with rfl | ⟨r, hr, hqr⟩
    · exact mem_descend_succ.2 (.inr ⟨x, hx, self_mem_descend (Nat.succ_pos n) x⟩)
    · exact mem_descend_succ.2 (.inr ⟨r, hr, ih hqr⟩)

/-- To be reached by going down any number of steps. -/
def Below (kids : α → List α) : α → α → Prop := Relation.ReflTransGen fun p q => q ∈ kids p

theorem below_of_mem_descend {kids : α → List α} {n : Nat} {p x : α}
    (h : x ∈ descend kids n p) : Below kids p x := by
  induction n generalizing p with
  | zero => exact absurd h List.not_mem_nil
  | succ n ih =>
    rcases mem_descend_succ.1 h with rfl | ⟨q, hq, hx⟩
    · exact .refl
    · exact .head hq (ih hx)

theorem pos_of_not_deep {kids : α → List α} {n : Nat} {p : α} (h : ¬ Deep kids n p) : 0 < n := by
  cases n with
  | zero => exact (h trivial).elim
  | succ n => exact Nat.succ_pos n

theorem kids_mem_descend {kids : α → List α} {n : Nat} {p q x : α} (h : ¬ Deep kids n p)
    (hq : q ∈ descend kids n p) (hx : x ∈ kids q) : x ∈ descend kids n p := by
  induction n generalizing p with
  | zero => exact absurd hq List.not_mem_nil
  | succ n ih =>
    refine mem_descend_succ.2 (.inr ?_)
    rcases mem_descend_succ.1 hq with rfl | ⟨r, hr, hqr⟩
    · have hd : ¬ Deep kids n x := fun hd => h ⟨x, hx, hd⟩
      exact ⟨x, hx, self_mem_descend (pos_of_not_deep hd) x⟩
    · exact ⟨r, hr, ih (fun hd => h ⟨r, hr, hd⟩) hqr⟩

/-- Going down as far as the hierarchy is deep meets everything below. -/
theorem mem_descend_iff {kids : α → List α} {n : Nat} {p x : α} (h : ¬ Deep kids n p) :
    x ∈ descend kids n p ↔ Below kids p x := by
  refine ⟨below_of_mem_descend, fun hx => ?_⟩
  induction hx with
  | refl => exact self_mem_descend (pos_of_not_deep h) p
  | tail _ hstep ih => exact kids_mem_descend h ih hstep

theorem Deep.pred {kids : α → List α} {n : Nat} {p : α} (h : Deep kids (n + 1) p) :
    Deep kids n p := by
  induction n generalizing p with
  | zero => trivial
  | succ n ih =>
    obtain ⟨r, hr, hd⟩ := h
    exact ⟨r, hr, ih hd⟩

theorem Deep.of_le {kids : α → List α} {n m : Nat} {p : α} (h : Deep kids m p) (hnm : n ≤ m) :
    Deep kids n p := by
  induction hnm with
  | refl => exact h
  | step _ ih => exact ih h.pred

theorem Deep.of_below {kids : α → List α} {n : Nat} {p q : α} (hq : Below kids p q)
    (h : Deep kids n q) : Deep kids n p := by
  induction hq using Relation.ReflTransGen.head_induction_on with
  | refl => exact h
  | head hstep _ ih => exact Deep.pred ⟨_, hstep, ih⟩

/-- A way down that comes back to its start has no end. -/
theorem deep_of_cycle {kids : α → List α} {p q : α} (hq : q ∈ kids p) (h : Below kids q p)
    (n : Nat) : Deep kids n p := by
  induction n with
  | zero => trivial
  | succ n ih => exact ⟨q, hq, ih.of_below h⟩

theorem Deep.mono {kids kids' : α → List α} (hk : ∀ p, kids' p ⊆ kids p) {n : Nat} {p : α}
    (h : Deep kids' n p) : Deep kids n p := by
  induction n generalizing p with
  | zero => trivial
  | succ n ih =>
    obtain ⟨q, hq, hd⟩ := h
    exact ⟨q, hk p hq, ih hd⟩

theorem Below.mono {kids kids' : α → List α} (hk : ∀ p, kids' p ⊆ kids p) {p q : α}
    (h : Below kids' p q) : Below kids p q :=
  Relation.ReflTransGen.mono (fun p _ hq => hk p hq) p q h

/-- Where the children below are the same, so is what is met. -/
theorem descend_congr {kids kids' : α → List α} {n : Nat} {p : α} (h : ∀ q, Below kids p q → kids' q = kids q) :
    descend kids' n p = descend kids n p := by
  induction n generalizing p with
  | zero => rfl
  | succ n ih =>
    rw [descend, descend, h p .refl]
    congr 1
    apply List.flatMap_congr
    intro q hq
    exact ih fun r hr => h r (.head hq hr)

theorem climb_subset {parent : α → Option α} {n m : Nat} (h : n ≤ m) (x : α) :
    climb parent n x ⊆ climb parent m x := by
  induction n generalizing m x with
  | zero => exact List.nil_subset _
  | succ n ih =>
    obtain ⟨m, rfl⟩ := Nat.exists_eq_add_of_le' (Nat.le_trans (Nat.le_add_left 1 n) h)
    rw [climb, climb]
    apply List.cons_subset_cons
    cases parent x with
    | none => exact List.nil_subset _
    | some y => exact ih (show n ≤ m by omega) y

section Graft
variable [DecidableEq α] {kids kids' : α → List α} {w w' : α → Nat} {x : α}

theorem sum_filter_ne {f : α → Nat} (l : List α) :
    (l.map f).sum = ((l.filter (· ≠ x)).map f).sum + l.count x * f x := by
  induction l with
  | nil => simp
  | cons y l ih =>
    rw [List.map_cons, List.sum_cons, ih]
    by_cases hy : y = x
    · subst hy
      simp [Nat.add_mul]
      omega
    · simp [hy]
      omega

/-- A new child that weighs nothing changes no sum but its own. -/
theorem weight_add_leaf (hx : kids' x = []) (hwx : w' x = 0)
    (hk : ∀ p, p ≠ x → ((kids' p).filter (· ≠ x)).Sublist (kids p)) (hw : ∀ p, p ≠ x → w' p ≤ w p)
    (n : Nat) {p : α} (hp : p ≠ x) : weight kids' w' n p ≤ weight kids w n p := by
  have hzero : ∀ n, weight kids' w' n x = 0 := by
    intro n
    cases n with
    | zero => rfl
    | succ n => simp [weight, hx, hwx]
  induction n generalizing p with
  | zero => exact Nat.le_refl _
  | succ n ih =>
    rw [weight, weight, sum_filter_ne (x := x), hzero, Nat.mul_zero, Nat.add_zero]
    have h₁ : (((kids' p).filter (· ≠ x)).map (weight kids' w' n)).sum ≤
        (((kids' p).filter (· ≠ x)).map (weight kids w n)).sum := by
      apply List.sum_le_sum
      intro q hq
      exact ih (by simpa using (List.mem_filter.1 hq).2)
    have h₂ : (((kids' p).filter (· ≠ x)).map (weight kids w n)).sum ≤
        ((kids p).map (weight kids w n)).sum :=
      ((hk p hp).map _).sum_le_sum fun _ _ => Nat.zero_le _
    exact Nat.add_le_add (hw p hp) (h₁.trans h₂)

/-- Where `x` becomes a child, each way down to it adds at most what is below it. -/
theorem weight_graft (hk : ∀ p, ((kids' p).filter (· ≠ x)).Sublist (kids p)) {n m : Nat}
    (hnm : n ≤ m) (p : α) : weight kids' w n p ≤
      weight kids w n p + (descend kids' n p).count x * weight kids' w m x := by
  induction n generalizing p with
  | zero => exact Nat.zero_le _
  | succ n ih =>
    have hm : n ≤ m := by omega
    have hx : weight kids' w n x ≤ (descend kids' n x).count x * weight kids' w m x := by
      cases n with
      | zero => exact Nat.zero_le _
      | succ n =>
        have hpos : 1 ≤ (descend kids' (n + 1) x).count x :=
          List.count_pos_iff.2 (self_mem_descend (Nat.succ_pos n) x)
        exact (weight_le_of_le kids' w hm x).trans (Nat.le_mul_of_pos_left _ hpos)
    have hsum : ((kids' p).map (weight kids' w n)).sum ≤
        (((kids' p).filter (· ≠ x)).map (weight kids w n)).sum +
          ((kids' p).map (fun q => (descend kids' n q).count x)).sum * weight kids' w m x := by
      induction kids' p with
      | nil => simp
      | cons q qs ihq =>
        rw [List.map_cons, List.sum_cons, List.map_cons, List.sum_cons, Nat.add_mul]
        by_cases hq : q = x
        · subst hq
          simp only [List.filter_cons, ne_eq, not_true_eq_false, decide_false, Bool.false_eq_true,
            if_false]
          simp only [ne_eq] at ihq
          omega
        · have hqn := ih hm q
          simp only [List.filter_cons, ne_eq, hq, not_false_eq_true, decide_true, if_true,
            List.map_cons, List.sum_cons]
          simp only [ne_eq] at ihq
          omega
    have hsub : (((kids' p).filter (· ≠ x)).map (weight kids w n)).sum ≤
        ((kids p).map (weight kids w n)).sum :=
      ((hk p).map _).sum_le_sum fun _ _ => Nat.zero_le _
    have hcount : ((kids' p).map (fun q => (descend kids' n q).count x)).sum ≤
        (descend kids' (n + 1) p).count x := by
      rw [descend, List.count_cons, List.count_flatMap]
      exact Nat.le_add_right _ _
    have hmul := Nat.mul_le_mul_right (weight kids' w m x) hcount
    rw [weight, weight]
    omega

/-- A way down to a new child goes through one of its new parents. -/
theorem mem_descend_graft (hk : ∀ p, ((kids' p).filter (· ≠ x)).Sublist (kids p)) {n : Nat} {p : α}
    (h : x ∈ descend kids' n p) : p = x ∨ ∃ b, Below kids p b ∧ x ∈ kids' b := by
  induction n generalizing p with
  | zero => exact absurd h List.not_mem_nil
  | succ n ih =>
    rcases mem_descend_succ.1 h with hx | ⟨q, hq, hxq⟩
    · exact .inl hx.symm
    · by_cases hqx : q = x
      · exact .inr ⟨p, .refl, hqx ▸ hq⟩
      · obtain ⟨b, hb, hxb⟩ := (ih hxq).resolve_left hqx
        have hqp : q ∈ kids p := (hk p).subset (List.mem_filter.2 ⟨hq, by simpa using hqx⟩)
        exact .inr ⟨b, .head hqp hb, hxb⟩

/-- Becoming a child of others does not change the sum of a node that is not below itself. -/
theorem weight_graft_self (hk : ∀ p, ((kids' p).filter (· ≠ x)).Sublist (kids p))
    (hx : ∀ q ∈ kids' x, ¬ Below kids' q x) (n : Nat) :
    weight kids' w n x ≤ weight kids w n x := by
  cases n with
  | zero => exact Nat.le_refl _
  | succ n =>
    have hne : ∀ q ∈ kids' x, decide (q ≠ x) = true := by
      intro q hq
      apply decide_eq_true
      intro he
      exact hx q hq (he ▸ .refl)
    have hsub : (kids' x).Sublist (kids x) := by
      have h := hk x
      rwa [List.filter_eq_self.2 hne] at h
    have h₁ : ((kids' x).map (weight kids' w n)).sum ≤ ((kids' x).map (weight kids w n)).sum := by
      apply List.sum_le_sum
      intro q hq
      have hg := weight_graft (w := w) hk (Nat.le_refl n) q
      have hz : (descend kids' n q).count x = 0 := by
        apply List.count_eq_zero_of_not_mem
        intro hm
        exact hx q hq (below_of_mem_descend hm)
      rw [hz, Nat.zero_mul] at hg
      exact hg
    have h₂ : ((kids' x).map (weight kids w n)).sum ≤ ((kids x).map (weight kids w n)).sum :=
      (hsub.map _).sum_le_sum fun _ _ => Nat.zero_le _
    exact Nat.add_le_add_left (h₁.trans h₂) _

end Graft

section Ranked
variable {kids : α → List α} {rank : α → Nat} (hr : ∀ p q, q ∈ kids p → rank p < rank q)
include hr

theorem Below.rank_le {p q : α} (h : Below kids p q) : rank p ≤ rank q := by
  induction h with
  | refl => exact Nat.le_refl _
  | tail _ hstep ih => exact ih.trans (Nat.le_of_lt (hr _ _ hstep))

theorem not_below_of_kid {p q : α} (hq : q ∈ kids p) : ¬ Below kids q p := by
  intro h
  have hlt := hr p q hq
  have hle := h.rank_le hr
  omega

/-- Where each node has one parent there is at most one way down from one node to another. -/
theorem count_descend_le_one [DecidableEq α] (hn : ∀ p, (kids p).Nodup)
    (hu : ∀ p p' q, q ∈ kids p → q ∈ kids p' → p = p') (n : Nat) (p x : α) :
    (descend kids n p).count x ≤ 1 := by
  have hparents : ∀ q, ∃ o : Option α, ∀ p, o = some p ↔ q ∈ kids p := by
    intro q
    by_cases h : ∃ p, q ∈ kids p
    · obtain ⟨p, hp⟩ := h
      refine ⟨some p, fun p' => ⟨?_, ?_⟩⟩
      · intro he
        exact Option.some.inj he ▸ hp
      · intro hp'
        exact congrArg some (hu p p' q hp hp')
    · refine ⟨none, fun p => ⟨?_, ?_⟩⟩
      · intro he
        cases he
      · intro hp
        exact (h ⟨p, hp⟩).elim
  choose parent hparent using hparents
  have hends : ∀ n y, rank y < n → Ends parent n y := by
    intro n
    induction n with
    | zero =>
      intro y hy
      exact (Nat.not_lt_zero _ hy).elim
    | succ n ih =>
      intro y hy z hz
      have hlt := hr z y ((hparent y z).1 hz)
      exact ih z (by omega)
  have hnd := (hends (rank x + 1) x (Nat.lt_succ_self _)).climb_nodup (m := n)
  have hle := count_descend_le hn (fun p q hq => (hparent q p).2 hq) n p x
  exact hle.trans (List.nodup_iff_count_le_one.1 hnd p)

end Ranked

end Hierarchy

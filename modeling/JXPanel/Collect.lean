import Mathlib

set_option autoImplicit true

/-! Loops over a list that may fail and that gather a list or a count. -/

namespace Collect
variable {α β ε : Type}

def concatM (f : α → Except ε (List β)) : List α → Except ε (List β)
  | [] => .ok []
  | x :: xs => do
    let r ← f x
    let rs ← concatM f xs
    return r ++ rs

def sumM (f : α → Except ε Nat) : List α → Except ε Nat
  | [] => .ok 0
  | x :: xs => do
    let r ← f x
    let rs ← sumM f xs
    return r + rs

/-- Run a state change for each item until one fails; what was changed stays changed. -/
def runAll {σ : Type} (f : σ → α → σ × Except ε Unit) : List α → σ → σ × Except ε Unit
  | [], s => (s, .ok ())
  | x :: xs, s =>
    match f s x with
    | (s', .ok ()) => runAll f xs s'
    | (s', .error e) => (s', .error e)

theorem ok_bind (a : α) (f : α → Except ε β) : (Except.ok a >>= f) = f a := rfl

/-- A sequence of two computations returns what the second does on the first's result. -/
theorem bind_ok {x : Except ε α} {f : α → Except ε β} {b : β} :
    x >>= f = .ok b ↔ ∃ a, x = .ok a ∧ f a = .ok b := by
  constructor
  · intro h
    cases x with
    | error e => cases h
    | ok a => exact ⟨a, rfl, h⟩
  · rintro ⟨a, rfl, h⟩
    exact h

theorem bind_total {x : Except ε α} {f : α → Except ε β} (h : ∃ a, x = .ok a)
    (hf : ∀ a, x = .ok a → ∃ b, f a = .ok b) : ∃ b, x >>= f = .ok b := by
  obtain ⟨a, ha⟩ := h
  obtain ⟨b, hb⟩ := hf a ha
  exact ⟨b, bind_ok.2 ⟨a, ha, hb⟩⟩

theorem concatM_cons {f : α → Except ε (List β)} {x : α} {xs : List α} {r : List β} :
    concatM f (x :: xs) = .ok r ↔
      ∃ a b, f x = .ok a ∧ concatM f xs = .ok b ∧ r = a ++ b := by
  rw [concatM, bind_ok]
  constructor
  · rintro ⟨a, ha, h⟩
    obtain ⟨b, hb, h⟩ := bind_ok.1 h
    cases h
    exact ⟨a, b, ha, hb, rfl⟩
  · rintro ⟨a, b, ha, hb, rfl⟩
    exact ⟨a, ha, bind_ok.2 ⟨b, hb, rfl⟩⟩

theorem concatM_part {f : α → Except ε (List β)} {l : List α} {r : List β}
    (h : concatM f l = .ok r) : ∀ x ∈ l, ∃ a, f x = .ok a ∧ a ⊆ r := by
  induction l generalizing r with
  | nil => exact fun x hx => absurd hx List.not_mem_nil
  | cons y ys ih =>
    obtain ⟨a, b, ha, hb, rfl⟩ := concatM_cons.1 h
    intro x hx
    rcases List.mem_cons.1 hx with rfl | hx
    · exact ⟨a, ha, List.subset_append_left _ _⟩
    · obtain ⟨c, hc, hs⟩ := ih hb x hx
      exact ⟨c, hc, fun z hz => List.mem_append_right _ (hs hz)⟩

theorem mem_concatM {f : α → Except ε (List β)} {l : List α} {r : List β}
    (h : concatM f l = .ok r) {y : β} :
    y ∈ r ↔ ∃ x ∈ l, ∃ a, f x = .ok a ∧ y ∈ a := by
  constructor
  · intro hy
    induction l generalizing r with
    | nil => cases h; exact absurd hy List.not_mem_nil
    | cons z zs ih =>
      obtain ⟨a, b, ha, hb, rfl⟩ := concatM_cons.1 h
      rcases List.mem_append.1 hy with hy | hy
      · exact ⟨z, List.mem_cons_self, a, ha, hy⟩
      · obtain ⟨x, hx, c, hc, hyc⟩ := ih hb hy
        exact ⟨x, List.mem_cons_of_mem _ hx, c, hc, hyc⟩
  · rintro ⟨x, hx, a, ha, hy⟩
    obtain ⟨c, hc, hs⟩ := concatM_part h x hx
    rw [ha] at hc
    cases hc
    exact hs hy

theorem concatM_total {f : α → Except ε (List β)} {l : List α}
    (h : ∀ x ∈ l, ∃ a, f x = .ok a) : ∃ r, concatM f l = .ok r := by
  induction l with
  | nil => exact ⟨[], rfl⟩
  | cons y ys ih =>
    obtain ⟨a, ha⟩ := h y List.mem_cons_self
    obtain ⟨b, hb⟩ := ih fun x hx => h x (List.mem_cons_of_mem _ hx)
    exact ⟨a ++ b, concatM_cons.2 ⟨a, b, ha, hb, rfl⟩⟩

theorem concatM_congr {f g : α → Except ε (List β)} {l : List α} (h : ∀ x ∈ l, f x = g x) :
    concatM f l = concatM g l := by
  induction l with
  | nil => rfl
  | cons x l ih =>
    rw [concatM, concatM, h x List.mem_cons_self, ih fun y hy => h y (List.mem_cons_of_mem _ hy)]

theorem concatM_single (l : List α) : (concatM (fun x => .ok [x]) l : Except ε (List α)) = .ok l := by
  induction l with
  | nil => rfl
  | cons x l ih =>
    rw [concatM, ih]
    rfl

theorem concatM_eq {f : α → Except ε (List β)} {g : α → List β} {l : List α} (h : ∀ x ∈ l, f x = .ok (g x)) :
    concatM f l = .ok (l.flatMap g) := by
  induction l with
  | nil => rfl
  | cons y ys ih =>
    rw [concatM, h y List.mem_cons_self, ih fun x hx => h x (List.mem_cons_of_mem _ hx)]
    rfl

/-- What is collected comes from a function of the items. -/
theorem concatM_inv {f : α → Except ε (List β)} {l : List α} {r : List β} (h : concatM f l = .ok r) :
    ∃ g : α → List β, (∀ x ∈ l, f x = .ok (g x)) ∧ r = l.flatMap g := by
  have hpart : ∀ x, ∃ a, x ∈ l → f x = .ok a := by
    intro x
    by_cases hx : x ∈ l
    · obtain ⟨a, ha, -⟩ := concatM_part h x hx
      exact ⟨a, fun _ => ha⟩
    · exact ⟨[], fun hm => absurd hm hx⟩
  choose g hg using hpart
  have heq := concatM_eq (fun x hx => hg x hx)
  rw [h] at heq
  exact ⟨g, fun x hx => hg x hx, Except.ok.inj heq⟩

theorem sumM_congr {f g : α → Except ε Nat} {l : List α} (h : ∀ x ∈ l, f x = g x) : sumM f l = sumM g l := by
  induction l with
  | nil => rfl
  | cons y ys ih => rw [sumM, sumM, h y List.mem_cons_self, ih fun x hx => h x (List.mem_cons_of_mem _ hx)]

theorem sumM_eq {f : α → Except ε Nat} {g : α → Nat} {l : List α}
    (h : ∀ x ∈ l, f x = .ok (g x)) : sumM f l = .ok (l.map g).sum := by
  induction l with
  | nil => rfl
  | cons y ys ih =>
    rw [sumM, h y List.mem_cons_self, ih fun x hx => h x (List.mem_cons_of_mem _ hx)]
    rfl

/-- What every single change keeps, all of them keep, also when one fails. -/
theorem runAll_keeps {σ : Type} {f : σ → α → σ × Except ε Unit} {P : σ → Prop} {l : List α}
    (h : ∀ s x, x ∈ l → P s → P (f s x).1) {s : σ} (hs : P s) : P (runAll f l s).1 := by
  induction l generalizing s with
  | nil => exact hs
  | cons x xs ih =>
    have hx := h s x List.mem_cons_self hs
    rw [runAll]
    rcases hf : f s x with ⟨s', r⟩
    rw [hf] at hx
    cases r with
    | error e => exact hx
    | ok r => exact ih (fun s y hy => h s y (List.mem_cons_of_mem _ hy)) hx

theorem runAll_append {σ : Type} {f : σ → α → σ × Except ε Unit} {l : List α} {s s' : σ}
    (h : runAll f l s = (s', .ok ())) (r : List α) : runAll f (l ++ r) s = runAll f r s' := by
  induction l generalizing s with
  | nil =>
    cases h
    rfl
  | cons x l ih =>
    rw [runAll] at h
    rw [List.cons_append, runAll]
    rcases hx : f s x with ⟨s₁, e | u⟩
    · rw [hx] at h
      cases h
    · rw [hx] at h
      exact ih h

/-- Where no change has anything to do nothing is changed. -/
theorem runAll_quiet {σ : Type} {f : σ → α → σ × Except ε Unit} {l : List α} {s : σ}
    (h : ∀ x ∈ l, f s x = (s, .ok ())) : runAll f l s = (s, .ok ()) := by
  induction l with
  | nil => rfl
  | cons x l ih =>
    rw [runAll, h x List.mem_cons_self]
    exact ih fun y hy => h y (List.mem_cons_of_mem x hy)

/-- Each change settles its item, if the ones before have not touched it, and the ones behind leave it
settled. -/
theorem runAll_settles {σ : Type} {f : σ → α → σ × Except ε Unit} {I : σ → Prop} {T S : α → σ → Prop} {l : List α}
    (hstep : ∀ x ∈ l, ∀ s, I s → T x s → ∃ s', f s x = (s', .ok ()) ∧ I s' ∧ S x s')
    (htouch : l.Pairwise fun x y => ∀ s s', I s → f s x = (s', .ok ()) → T y s → T y s')
    (hkeep : l.Pairwise fun x y => ∀ s s', I s → f s y = (s', .ok ()) → S x s → S x s')
    {s : σ} (hs : I s) (hT : ∀ x ∈ l, T x s) :
    ∃ s', runAll f l s = (s', .ok ()) ∧ I s' ∧ ∀ x ∈ l, S x s' := by
  induction l using List.reverseRecOn generalizing s I with
  | nil => exact ⟨s, rfl, hs, fun x hx => absurd hx List.not_mem_nil⟩
  | append_singleton l x ih =>
    obtain ⟨htouched, -, hlast⟩ := List.pairwise_append.1 htouch
    obtain ⟨hkept, -, hlater⟩ := List.pairwise_append.1 hkeep
    have hxs : x ∈ [x] := List.mem_singleton_self x
    -- the changes before leave the last item untouched
    obtain ⟨s₁, hrun, ⟨hI, hTx⟩, hS⟩ := ih (I := fun s => I s ∧ T x s)
      (fun y hy s hI hTy => by
        obtain ⟨s', hy', hI', hS'⟩ := hstep y (List.mem_append_left _ hy) s hI.1 hTy
        exact ⟨s', hy', ⟨hI', hlast y hy x hxs s s' hI.1 hy' hI.2⟩, hS'⟩)
      (htouched.imp fun h s s' hI => h s s' hI.1) (hkept.imp fun h s s' hI => h s s' hI.1)
      ⟨hs, hT x (List.mem_append_right _ hxs)⟩ fun y hy => hT y (List.mem_append_left _ hy)
    obtain ⟨s', hx', hI', hSx⟩ := hstep x (List.mem_append_right _ hxs) s₁ hI hTx
    refine ⟨s', ?_, hI', fun y hy => ?_⟩
    · rw [runAll_append hrun, runAll, hx']
      rfl
    · rcases List.mem_append.1 hy with hy | hy
      · exact hlater y hy x hxs s₁ s' hI hx' (hS y hy)
      · rw [List.mem_singleton.1 hy]
        exact hSx

theorem sum_map_flatMap (f : α → List β) (w : β → Nat) (l : List α) :
    ((l.flatMap f).map w).sum = (l.map (fun x => ((f x).map w).sum)).sum := by
  induction l with
  | nil => rfl
  | cons x l ih => rw [List.flatMap_cons, List.map_append, List.sum_append, ih]; rfl

theorem sum_map_filter (b : α → Bool) (w : α → Nat) (l : List α) :
    ((l.filter b).map w).sum = (l.map (fun x => if b x then w x else 0)).sum := by
  induction l with
  | nil => rfl
  | cons x l ih => cases hb : b x <;> simp [hb, ih]

theorem flatMap_sublist {f f' : α → List β} (hf : ∀ x, (f' x).Sublist (f x)) {l l' : List α}
    (h : l'.Sublist l) : (l'.flatMap f').Sublist (l.flatMap f) := by
  induction h with
  | slnil => exact .slnil
  | cons x _ ih => exact ih.trans (List.sublist_append_right _ _)
  | cons_cons x _ ih => exact (hf x).append ih

/-- The least of a list is that of a part of it just when the part has a bound of all others. -/
theorem min?_append_eq_left [LinearOrder α] (l r : List α) :
    (l ++ r).min? = l.min? ↔ ∀ n ∈ r, ∃ m ∈ l, m ≤ n := by
  constructor
  · intro h n hn
    cases hm : (l ++ r).min? with
    | none =>
      rw [List.min?_eq_none_iff] at hm
      rw [(List.append_eq_nil_iff.1 hm).2] at hn
      exact absurd hn List.not_mem_nil
    | some m =>
      obtain ⟨-, hle⟩ := List.min?_eq_some_iff.1 hm
      exact ⟨m, List.min?_mem (h ▸ hm), hle n (List.mem_append_right _ hn)⟩
  · intro h
    cases hm : l.min? with
    | none =>
      rw [List.min?_eq_none_iff] at hm
      subst hm
      rw [List.nil_append, List.min?_eq_none_iff]
      apply List.eq_nil_iff_forall_not_mem.2
      intro n hn
      obtain ⟨m, hm, -⟩ := h n hn
      exact List.not_mem_nil hm
    | some m =>
      obtain ⟨hmem, hle⟩ := List.min?_eq_some_iff.1 hm
      apply List.min?_eq_some_iff.2
      refine ⟨List.mem_append_left _ hmem, ?_⟩
      intro n hn
      rcases List.mem_append.1 hn with hn | hn
      · exact hle n hn
      · obtain ⟨k, hk, hkn⟩ := h n hn
        exact (hle k hk).trans hkn

end Collect

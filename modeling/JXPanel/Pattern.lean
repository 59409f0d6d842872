import Mathlib.Data.List.Infix
import Mathlib.Tactic.Common

set_option autoImplicit true

/-! Patterns of classes of characters, matched from left to right, as much as possible first and then less. -/

namespace Pattern
variable {α : Type}

inductive Item (α : Type)
  | one (p : α → Bool)
  | star (p : α → Bool)

/-- Take as many items of a class as leave a rest that can be gone on with. -/
def takeMany (p : α → Bool) (goOn : List α → Option Nat) : List α → Option Nat
  | [] => goOn []
  | c :: cs => if p c then ((takeMany p goOn cs).map (· + 1)).or (goOn (c :: cs)) else goOn (c :: cs)

def takeOne (p : α → Bool) (goOn : List α → Option Nat) : List α → Option Nat
  | [] => none
  | c :: cs => if p c then (goOn cs).map (· + 1) else none

/-- How much a pattern takes from the beginning of a text. -/
def taken : List (Item α) → List α → Option Nat
  | [], _ => some 0
  | .one p :: is, cs => takeOne p (taken is) cs
  | .star p :: is, cs => takeMany p (taken is) cs

/-- The parts of a text that a pattern takes one behind another. -/
def matchAll (is : List (Item α)) : Nat → List α → List (List α)
  | _, [] => []
  | skip + 1, _ :: cs => matchAll is skip cs
  | 0, c :: cs =>
    match taken is (c :: cs) with
    | none => matchAll is 0 cs
    | some n => (c :: cs).take n :: matchAll is (n - 1) cs

/-- The texts that a pattern stands for. -/
inductive Matches : List (Item α) → List α → Prop
  | nil : Matches [] []
  | one (hc : p c = true) (h : Matches is cs) : Matches (.one p :: is) (c :: cs)
  | stop (h : Matches is cs) : Matches (.star p :: is) cs
  | more (hc : p c = true) (h : Matches (.star p :: is) cs) : Matches (.star p :: is) (c :: cs)

variable {is js : List (Item α)} {cs ds : List α} {p : α → Bool} {n : Nat}

theorem Matches.append (h : Matches is cs) (h' : Matches js ds) : Matches (is ++ js) (cs ++ ds) := by
  induction h with
  | nil => exact h'
  | one hc _ ih => exact .one hc ih
  | stop _ ih => exact .stop ih
  | more hc _ ih => exact .more hc ih

/-- A pattern whose beginning may be empty. -/
theorem Matches.skip (h : Matches js ds) (hstar : ∀ i ∈ is, ∃ p, i = .star p) : Matches (is ++ js) ds := by
  induction is with
  | nil => exact h
  | cons i is ih =>
    obtain ⟨p, rfl⟩ := hstar i List.mem_cons_self
    exact .stop (ih fun i hi => hstar i (List.mem_cons_of_mem _ hi))

theorem Matches.many (h : Matches js ds) (hcs : ∀ c ∈ cs, p c = true) : Matches (.star p :: js) (cs ++ ds) := by
  induction cs with
  | nil => exact .stop h
  | cons c cs ih => exact .more (hcs c List.mem_cons_self) (ih fun c hc => hcs c (List.mem_cons_of_mem _ hc))

/-- A text that ends as the end of its pattern does. -/
theorem Matches.split (h : Matches (is ++ js) cs) : ∃ xs ys, cs = xs ++ ys ∧ Matches is xs ∧ Matches js ys := by
  generalize hks : is ++ js = ks at h
  induction h generalizing is with
  | nil =>
    obtain ⟨rfl, rfl⟩ := List.append_eq_nil_iff.1 hks
    exact ⟨[], [], rfl, .nil, .nil⟩
  | one hc h ih =>
    rcases List.append_eq_cons_iff.1 hks with ⟨rfl, rfl⟩ | ⟨is, rfl, rfl⟩
    · exact ⟨[], _, rfl, .nil, .one hc h⟩
    · obtain ⟨xs, ys, rfl, hxs, hys⟩ := ih rfl
      exact ⟨_ :: xs, ys, rfl, .one hc hxs, hys⟩
  | stop h ih =>
    rcases List.append_eq_cons_iff.1 hks with ⟨rfl, rfl⟩ | ⟨is, rfl, rfl⟩
    · exact ⟨[], _, rfl, .nil, .stop h⟩
    · obtain ⟨xs, ys, rfl, hxs, hys⟩ := ih rfl
      exact ⟨xs, ys, rfl, .stop hxs, hys⟩
  | more hc h ih =>
    rcases List.append_eq_cons_iff.1 hks with ⟨rfl, rfl⟩ | ⟨is, rfl, rfl⟩
    · exact ⟨[], _, rfl, .nil, .more hc h⟩
    · obtain ⟨xs, ys, rfl, hxs, hys⟩ := @ih (.star _ :: is) rfl
      exact ⟨_ :: xs, ys, rfl, .more hc hxs, hys⟩

section Sound

theorem takeMany_inv {goOn : List α → Option Nat} (h : takeMany p goOn cs = some n) :
    ∃ k m, n = k + m ∧ k ≤ cs.length ∧ (∀ c ∈ cs.take k, p c = true) ∧ goOn (cs.drop k) = some m := by
  induction cs generalizing n with
  | nil => exact ⟨0, n, (Nat.zero_add n).symm, Nat.le_refl _, fun c hc => absurd hc List.not_mem_nil, h⟩
  | cons c cs ih =>
    have hnone : goOn (c :: cs) = some n → ∃ k m, n = k + m ∧ k ≤ (c :: cs).length ∧
        (∀ d ∈ (c :: cs).take k, p d = true) ∧ goOn ((c :: cs).drop k) = some m :=
      fun hgo => ⟨0, n, (Nat.zero_add n).symm, Nat.zero_le _, fun d hd => absurd hd List.not_mem_nil, hgo⟩
    rw [takeMany] at h
    split at h
    · rename_i hc
      rcases Option.or_eq_some_iff.1 h with hmore | ⟨-, hgo⟩
      · obtain ⟨n', hn', rfl⟩ := Option.map_eq_some_iff.1 hmore
        obtain ⟨k, m, rfl, hk, hall, hgo⟩ := ih hn'
        refine ⟨k + 1, m, by omega, Nat.succ_le_succ hk, fun d hd => ?_, hgo⟩
        rcases List.mem_cons.1 hd with rfl | hd
        · exact hc
        · exact hall d hd
      · exact hnone hgo
    · exact hnone h

/-- What a pattern takes is one of its texts. -/
theorem taken_sound (h : taken is cs = some n) : n ≤ cs.length ∧ Matches is (cs.take n) := by
  induction is generalizing cs n with
  | nil =>
    cases h
    exact ⟨Nat.zero_le _, .nil⟩
  | cons i is ih =>
    cases i with
    | one p =>
      rw [taken] at h
      cases cs with
      | nil => cases h
      | cons c cs =>
        rw [takeOne] at h
        split at h
        · rename_i hc
          obtain ⟨m, hm, rfl⟩ := Option.map_eq_some_iff.1 h
          obtain ⟨hle, hmatch⟩ := ih hm
          exact ⟨Nat.succ_le_succ hle, .one hc hmatch⟩
        · cases h
    | star p =>
      rw [taken] at h
      obtain ⟨k, m, rfl, hk, hall, hgo⟩ := takeMany_inv h
      obtain ⟨hle, hmatch⟩ := ih hgo
      rw [List.length_drop] at hle
      refine ⟨by omega, ?_⟩
      rw [List.take_add]
      exact hmatch.many hall

end Sound

section Complete

theorem takeMany_total {goOn : List α → Option Nat} (cs : List α) (hcs : ∀ c ∈ cs, p c = true) (h : (goOn ds).isSome) :
    (takeMany p goOn (cs ++ ds)).isSome := by
  induction cs with
  | nil =>
    cases ds with
    | nil => exact h
    | cons d ds =>
      rw [List.nil_append, takeMany]
      split
      · rw [Option.isSome_or, h, Bool.or_true]
      · exact h
  | cons c cs ih =>
    have hrest := ih fun c hc => hcs c (List.mem_cons_of_mem _ hc)
    rw [List.cons_append, takeMany, if_pos (hcs c List.mem_cons_self), Option.isSome_or, Option.isSome_map, hrest,
      Bool.true_or]

/-- A pattern takes something where one of its texts begins. -/
theorem taken_complete (h : Matches is cs) (ds : List α) : (taken is (cs ++ ds)).isSome := by
  induction h with
  | nil => rfl
  | @one p c is cs hc _ ih =>
    rw [taken, List.cons_append, takeOne, if_pos hc, Option.isSome_map]
    exact ih
  | @stop is cs p _ ih =>
    rw [taken]
    exact takeMany_total [] (fun c hc => absurd hc List.not_mem_nil) ih
  | @more p c is cs hc _ ih =>
    rw [taken] at ih ⊢
    rw [List.cons_append, takeMany, if_pos hc, Option.isSome_or, Option.isSome_map, ih, Bool.true_or]

end Complete

/-! Texts found in a text. -/

section First
variable [DecidableEq α]

/-- What stands in front of the first occurrence of a text, and what behind it. -/
def splitFirst (pat : List α) : List α → Option (List α × List α)
  | [] => if pat = [] then some ([], []) else none
  | c :: cs =>
    if pat <+: c :: cs then some ([], (c :: cs).drop pat.length)
    else (splitFirst pat cs).map fun r => (c :: r.1, r.2)

/-- A text that neither occurs in front nor reaches over from there is found where it is. -/
theorem splitFirst_append {pat before after : List α}
    (h : ∀ a b, before = a ++ b → b ≠ [] → ¬pat <+: b ++ (pat ++ after)) (hpat : pat ≠ []) :
    splitFirst pat (before ++ (pat ++ after)) = some (before, after) := by
  induction before with
  | nil =>
    rw [List.nil_append]
    cases pat with
    | nil => exact absurd rfl hpat
    | cons c pat =>
      have hpre : c :: pat <+: c :: (pat ++ after) := List.prefix_append (c :: pat) after
      rw [List.cons_append, splitFirst, if_pos hpre]
      congr 2
      exact List.drop_left
  | cons c before ih =>
    have hno := h [] (c :: before) rfl (List.cons_ne_nil _ _)
    have hrest := ih fun a b hab hb => h (c :: a) b (by rw [hab]; rfl) hb
    rw [List.cons_append] at hno ⊢
    rw [splitFirst, if_neg hno, hrest]
    rfl

end First

end Pattern

import Mathlib.Data.List.Basic
import Mathlib.Data.List.Induction
import Mathlib.Tactic.Common

set_option autoImplicit true

/-! Lists in which whatever comes before an item in a relation also stands before it. -/

namespace Precedence
variable {α : Type}

/-- Each item needs nothing before it or stands behind one that it comes after. -/
inductive Led (ok : α → Prop) (before : α → α → Prop) : List α → Prop
  | nil : Led ok before []
  | snoc (l : List α) (x : α) (h : Led ok before l) (hx : ok x ∨ ∃ y ∈ l, before y x) :
      Led ok before (l ++ [x])

variable {ok ok' : α → Prop} {before : α → α → Prop} {l l' : List α}

/-- What may stand behind a list: what comes after one of its items or needs nothing. -/
theorem Led.append (h : Led ok before l) (h' : Led ok' before l')
    (hok : ∀ x, ok' x → ok x ∨ ∃ y ∈ l, before y x) : Led ok before (l ++ l') := by
  induction h' with
  | nil =>
    rw [List.append_nil]
    exact h
  | snoc l' x _ hx ih =>
    rw [← List.append_assoc]
    apply Led.snoc _ _ ih
    rcases hx with hx | ⟨y, hy, hyx⟩
    · rcases hok x hx with hx | ⟨y, hy, hyx⟩
      · exact .inl hx
      · exact .inr ⟨y, List.mem_append_left _ hy, hyx⟩
    · exact .inr ⟨y, List.mem_append_right _ hy, hyx⟩

theorem Led.mono (h : Led ok' before l) (hok : ∀ x, ok' x → ok x) : Led ok before l :=
  Led.nil.append h fun x hx => .inl (hok x hx)

theorem Led.single {x : α} (hx : ok x) : Led ok before [x] := .snoc [] x .nil (.inl hx)

/-- What stands behind its first item. -/
theorem Led.cons {x : α} (h : Led ok' before l) (hx : ok x) (hok : ∀ y, ok' y → ok y ∨ before x y) :
    Led ok before (x :: l) := by
  apply (Led.single hx).append h
  intro y hy
  exact (hok y hy).imp_right fun hxy => ⟨x, List.mem_singleton_self x, hxy⟩

theorem Led.of_mem (h : Led ok before l) {x : α} (hx : x ∈ l) : ok x ∨ ∃ y ∈ l, before y x := by
  induction h with
  | nil => exact absurd hx List.not_mem_nil
  | snoc l y _ hy ih =>
    have hfound : ok x ∨ ∃ z ∈ l, before z x := by
      rcases List.mem_append.1 hx with hx | hx
      · exact ih hx
      · rw [List.mem_singleton.1 hx]
        exact hy
    exact hfound.imp_right fun hz => hz.imp fun z hzx => ⟨List.mem_append_left _ hzx.1, hzx.2⟩

theorem Led.of_all (h : ∀ x ∈ l, ok x) : Led ok before l := by
  induction l with
  | nil => exact .nil
  | cons x l ih =>
    exact (ih fun y hy => h y (List.mem_cons_of_mem x hy)).cons (h x List.mem_cons_self) fun _ hy => .inl hy

theorem Led.flatMap {β : Type} {l : List β} {f : β → List α} (h : ∀ b ∈ l, Led ok before (f b)) :
    Led ok before (l.flatMap f) := by
  induction l with
  | nil => exact .nil
  | cons b l ih =>
    rw [List.flatMap_cons]
    exact (h b List.mem_cons_self).append (ih fun c hc => h c (List.mem_cons_of_mem b hc)) fun _ hx => .inl hx

/-- What holds of the items that need nothing, and goes over to what comes after, holds of all. -/
theorem Led.forall {P : α → Prop} (h : Led ok before l) (hok : ∀ x, ok x → P x)
    (hnext : ∀ y x, P y → before y x → P x) : ∀ x ∈ l, P x := by
  induction h with
  | nil => exact fun x hx => absurd hx List.not_mem_nil
  | snoc l x _ hx ih =>
    intro z hz
    rcases List.mem_append.1 hz with hz | hz
    · exact ih z hz
    · rw [List.mem_singleton.1 hz]
      rcases hx with hx | ⟨y, hy, hyx⟩
      · exact hok x hx
      · exact hnext y x (ih y hy) hyx

section Dups
variable [DecidableEq α]

theorem eraseDups_snoc (l : List α) (x : α) :
    (l ++ [x]).eraseDups = if x ∈ l then l.eraseDups else l.eraseDups ++ [x] := by
  rw [List.eraseDups_append]
  split
  · rename_i hx
    simp [List.removeAll, hx]
  · rename_i hx
    simp [List.removeAll, hx, List.eraseDups_cons]

theorem nodup_eraseDups (l : List α) : l.eraseDups.Nodup := by
  induction l using List.reverseRecOn with
  | nil => exact List.nodup_nil
  | append_singleton l x ih =>
    rw [eraseDups_snoc]
    split
    · exact ih
    · rename_i hx
      refine List.nodup_append.2 ⟨ih, List.pairwise_singleton _ x, fun y hy z hz heq => ?_⟩
      rw [heq, List.mem_singleton.1 hz] at hy
      exact hx (List.mem_eraseDups.1 hy)

/-- Later copies of an item may be left out. -/
theorem Led.eraseDups (h : Led ok before l) : Led ok before l.eraseDups := by
  induction h with
  | nil => exact .nil
  | snoc l x _ hx ih =>
    rw [eraseDups_snoc]
    split
    · exact ih
    · apply Led.snoc _ _ ih
      exact hx.imp_right fun hy => hy.imp fun y hyx => ⟨List.mem_eraseDups.2 hyx.1, hyx.2⟩

end Dups

/-- Where each item comes after one other at most, none stands in front of what it comes after. -/
theorem Led.pairwise (h : Led ok before l) (hl : l.Nodup) (hfree : ∀ x ∈ l, ok x → ∀ y ∈ l, ¬before y x)
    (hone : ∀ x y y', before y x → before y' x → y = y') : l.Pairwise fun x y => ¬before y x := by
  induction h with
  | nil => exact .nil
  | snoc l x h _ ih =>
    obtain ⟨hnodup, -, hapart⟩ := List.nodup_append.1 hl
    rw [List.pairwise_append]
    refine ⟨ih hnodup fun y hy hoky z hz => hfree y (List.mem_append_left _ hy) hoky z (List.mem_append_left _ hz),
      List.pairwise_singleton _ _, ?_⟩
    intro y hy z hz hbefore
    rw [List.mem_singleton] at hz
    subst hz
    rcases h.of_mem hy with hoky | ⟨w, hw, hwy⟩
    · exact hfree y (List.mem_append_left _ hy) hoky z (List.mem_append_right _ (List.mem_singleton_self z)) hbefore
    · have heq := hone y w z hwy hbefore
      exact hapart w hw z (List.mem_singleton_self z) heq

/-- What stands behind is found behind. -/
theorem idxOf_lt_of_pairwise [DecidableEq α] (h : l.Pairwise fun x y => ¬before y x) {x y : α} (hx : x ∈ l)
    (hy : y ∈ l) (hne : x ≠ y) (hbefore : before x y) : l.idxOf x < l.idxOf y := by
  by_contra hle
  have hdiff : l.idxOf y ≠ l.idxOf x := by
    intro heq
    exact hne ((List.idxOf_inj hy).1 heq).symm
  have hlt : l.idxOf y < l.idxOf x := by omega
  have hapart := List.pairwise_iff_getElem.1 h _ _ (List.idxOf_lt_length_of_mem hy) (List.idxOf_lt_length_of_mem hx) hlt
  rw [List.getElem_idxOf, List.getElem_idxOf] at hapart
  exact hapart hbefore

end Precedence

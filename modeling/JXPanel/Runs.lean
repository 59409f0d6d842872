import Mathlib

set_option autoImplicit true

/-! The states that a system comes to by steps that are allowed where they are made. -/

namespace Runs
variable {σ α : Type}

/-- The states met in a run from the start whose steps are all as `ok` asks. -/
inductive Reached (step : σ → α → σ) (start : σ) (ok : σ → α → Prop) : σ → Prop
  | start : Reached step start ok start
  | step {s : σ} {c : α} (h : Reached step start ok s) (hc : ok s c) :
      Reached step start ok (step s c)

/-- Each step of a list is allowed in the state that the steps before it lead to. -/
def AllOk (step : σ → α → σ) (ok : σ → α → Prop) : σ → List α → Prop
  | _, [] => True
  | s, c :: cs => ok s c ∧ AllOk step ok (step s c) cs

instance instDecidableAllOk (step : σ → α → σ) (ok : σ → α → Prop) [∀ s c, Decidable (ok s c)] :
    (s : σ) → (cs : List α) → Decidable (AllOk step ok s cs)
  | _, [] => inferInstanceAs (Decidable True)
  | s, c :: cs =>
    haveI := instDecidableAllOk step ok (step s c) cs
    inferInstanceAs (Decidable (ok s c ∧ AllOk step ok (step s c) cs))

variable {step : σ → α → σ} {start : σ} {ok ok' : σ → α → Prop} {s : σ}

/-- What holds at the start and is kept by every allowed step holds in every state reached. -/
theorem Reached.keeps {P : σ → Prop} (h : Reached step start ok s) (hinit : P start)
    (hstep : ∀ s c, P s → ok s c → P (step s c)) : P s := by
  induction h with
  | start => exact hinit
  | step _ hc ih => exact hstep _ _ ih hc

theorem Reached.run (h : Reached step start ok s) {cs : List α} (hc : AllOk step ok s cs) :
    Reached step start ok (cs.foldl step s) := by
  induction cs generalizing s with
  | nil => exact h
  | cons c cs ih => exact ih (.step h hc.1) hc.2

theorem Reached.mono (h : Reached step start ok s) (hm : ∀ s c, ok s c → ok' s c) :
    Reached step start ok' s := by
  induction h with
  | start => exact .start
  | step _ hc ih => exact .step ih (hm _ _ hc)

theorem allOk_append {cs ds : List α} :
    AllOk step ok s (cs ++ ds) ↔ AllOk step ok s cs ∧ AllOk step ok (cs.foldl step s) ds := by
  induction cs generalizing s with
  | nil => exact (and_iff_right trivial).symm
  | cons c cs ih => exact (and_congr_right fun _ => ih).trans and_assoc.symm

/-- What no step brings back held before. -/
theorem holds_before {P : σ → Prop} (hlost : ∀ s c, P (step s c) → P s) {cs : List α} (h : P (cs.foldl step s)) : P s := by
  induction cs generalizing s with
  | nil => exact h
  | cons c cs ih => exact hlost s c (ih h)

/-- A property that a step loses just when it is not allowed, and that never comes back, holds after a run
just when all its steps are allowed. -/
theorem keeps_iff {P : σ → Prop} (hstep : ∀ s c, P s → (P (step s c) ↔ ok s c)) (hlost : ∀ s c, P (step s c) → P s)
    (hs : P s) (cs : List α) : P (cs.foldl step s) ↔ AllOk step ok s cs := by
  induction cs generalizing s with
  | nil => exact ⟨fun _ => trivial, fun _ => hs⟩
  | cons c cs ih =>
    constructor
    · intro h
      have hfirst : P (step s c) := by
        apply holds_before hlost
        exact h
      exact ⟨(hstep s c hs).1 hfirst, (ih hfirst).1 h⟩
    · rintro ⟨hc, hrest⟩
      exact (ih ((hstep s c hs).2 hc)).2 hrest

end Runs

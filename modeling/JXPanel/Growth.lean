import JXPanel.Forest

namespace JXPanel
set_option autoImplicit true

open Hierarchy

namespace Store

/-- The adds of the panel's forms: of a record with a name and without references of its own. -/
def Adds : Call → Prop
  | .addPlan owner name opts => owner ≠ none ∧ name ≠ "" ∧ PlainOpts opts ∧ WholeLimits opts
  | .addUser _ name opts => name ≠ "" ∧ name ≠ superUser ∧ PlainOpts opts
  | .addDomain _ _ opts => PlainOpts opts
  | _ => False

/-- All that holds of the records as long as they are only added. -/
structure Consistent (s : Store) : Prop where
  integrity : Integrity s
  sound : Sound s
  forest : Forest s

variable {s : Store}

/-- A climb that starts at a plan stays among the plans. -/
theorem Integrity.climb_mem (h : Integrity s) (hp : p ∈ s.plans) :
    ∀ q ∈ climb s.parentUp n p, q ∈ s.plans := by
  induction n generalizing p with
  | zero => exact fun q hq => absurd hq List.not_mem_nil
  | succ n ih =>
    intro q hq
    rw [climb] at hq
    rcases List.mem_cons.1 hq with rfl | hq
    · exact hp
    · cases hup : s.parentUp p with
      | none => simp [hup] at hq
      | some r =>
        rw [hup] at hq
        obtain ⟨o, -, ho⟩ := Option.bind_eq_some_iff.1 hup
        exact ih (mem_plans_of_seat ((h.seat o r).1 ho)) q hq

theorem PlainOpts.usersGiven (h : PlainOpts opts) : (usersGiven opts).keys = [] :=
  congrArg Dict.keys (h.overlay (k := "users") _ _ (by simp))

theorem PlainOpts.subPlansGiven (h : PlainOpts opts) : subPlansGiven opts = .empty :=
  h.overlay (k := "subPlans") _ _ (by simp)

theorem PlainOpts.domainsGiven (h : PlainOpts opts) : domainsGiven opts = .empty :=
  h.overlay (k := "domains") _ _ (by simp)

theorem Adds.keepsLinks (hn : Named s) {c : Call} (hc : Adds c) : KeepsLinks s c := by
  cases c with
  | addPlan owner name opts =>
    obtain ⟨ho, -, hp, -⟩ := hc
    cases owner with
    | none => exact (ho rfl).elim
    | some o =>
      intro user parent plan _ hu _ _ _
      refine ⟨?_, hp.usersGiven⟩
      rw [ownerGiven, hp.overlay _ _ (by simp)]
      exact (hn.user o user hu).1
  | addUser p name opts =>
    obtain ⟨-, -, hp⟩ := hc
    intro parent _ hparent _
    refine ⟨?_, ?_, ?_⟩
    · rw [planGiven, hp.overlay _ _ (by simp)]
      exact (hn.plan p parent hparent).1
    · rw [hp.subPlansGiven]
      exact fun q hq => absurd hq (Dict.not_mem_empty q)
    · rw [hp.domainsGiven]
      exact fun d hd => absurd hd (Dict.not_mem_empty d)
  | addDomain o name opts =>
    have hp : PlainOpts opts := hc
    intro user plan _ hu _ _
    rw [ownerGiven, hp.overlay _ _ (by simp)]
    exact (hn.user o user hu).1
  | _ => exact hc.elim

theorem Consistent.forest_addPlan (h : Consistent s) {owner : Option String} {opts : Obj}
    (hc : Adds (.addPlan owner name opts)) : Forest (s.addPlan owner name opts).1 := by
  obtain ⟨ho, -, hp, -⟩ := hc
  by_cases hname : name ∈ s.plans
  · rw [Store.addPlan.eq_def, if_pos (.inl hname)]
    exact h.forest
  · apply h.forest.addPlan
    refine ⟨hp.overlay _ _ (by simp), hp.usersGiven, ?_⟩
    intro o q _ hq hm
    obtain ⟨u, hu⟩ := Dict.mem_iff.1 (mem_plans_of_seat ((h.integrity.seat _ q).1 hq))
    exact hname (h.integrity.climb_mem (Dict.mem_of_get? hu) name hm)

theorem Consistent.forest_addUser (h : Consistent s) {opts : Obj}
    (hc : Adds (.addUser p name opts)) : Forest (s.addUser p name opts).1 := by
  obtain ⟨-, hsuper, hp⟩ := hc
  by_cases hname : name ∈ s.users
  · rw [Store.addUser, if_pos hname]
    exact h.forest
  · apply h.forest.addUser
    refine ⟨congrArg Dict.keys hp.subPlansGiven, ?_⟩
    intro parent _ q _ hq
    exact hname (mem_users_of_ownPlans (h.integrity.plan q name hsuper hq))

/-- No add of the forms breaks a reference, a quota or the tree of the plans. -/
theorem Consistent.exec (h : Consistent s) {c : Call} (hc : Adds c) : Consistent (s.exec c) := by
  have hlinks := h.integrity.exec (Adds.keepsLinks h.sound.named hc)
  cases c with
  | addPlan owner name opts =>
    have hk : AddsAndDeletes (.addPlan owner name opts) := ⟨hc.2.2.1, hc.2.2.2⟩
    exact ⟨hlinks, h.sound.exec (hk.keepsQuota hc.2.1), h.forest_addPlan hc⟩
  | addUser p name opts =>
    have hk : AddsAndDeletes (.addUser p name opts) := hc.2.2
    exact ⟨hlinks, h.sound.exec (hk.keepsQuota hc.1), h.forest_addUser hc⟩
  | addDomain o name opts =>
    have hk : AddsAndDeletes (.addDomain o name opts) := hc
    exact ⟨hlinks, h.sound.exec (hk.keepsQuota trivial),
      h.forest.panelStep (c := .call (.addDomain o name opts)) trivial⟩
  | _ => exact hc.elim

theorem consistent_installed : Consistent installed :=
  ⟨integrity_installed, sound_installed, forest_installed⟩

/-- Every store that the panel's forms make by adding is consistent. -/
theorem consistent_of_adds {s : Store} (h : Reached (fun _ c => Adds c) s) : Consistent s :=
  h.keeps consistent_installed fun _ _ ht hc => ht.exec hc

end Store
end JXPanel

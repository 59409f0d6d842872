import JXPanel.Descent

namespace JXPanel
set_option autoImplicit true

open Hierarchy

namespace Store

def active (s : Store) (q : String) : Bool :=
  ((s.plans.get? q).map (fun P => !P.suspended.truthy)).getD false

/-- The plans that a total goes down to from a plan. -/
def activeSubs (s : Store) (p : String) : List String :=
  (s.seats p).flatMap (fun u => (s.ownPlans u).filter s.active)

/-- What a plan's own users add to a total. -/
def charge (s : Store) (m : Measure) (p : String) : Nat :=
  ((s.seats p).map (fun u => ((s.users.get? u).map m.weigh).getD 0)).sum

/-- A plan is above the plans of its users. -/
def Ranked (s : Store) : Prop := ∃ rank : String → Nat, ∀ p q, q ∈ s.subs p → rank p < rank q

/-- The total of a plan as a sum over the plans below it. -/
def load (s : Store) (m : Measure) (p : String) : Nat :=
  weight s.activeSubs (s.charge m) s.fuel p

/-- The plan that the owner of a plan is in. -/
def parentUp (s : Store) (p : String) : Option String := (s.ownerOf p).bind s.planOf

variable {s : Store}

theorem active_of_get? (h : s.plans.get? q = some Q) : s.active q = !Q.suspended.truthy := by
  rw [active, h]
  rfl

theorem mem_activeSubs :
    q ∈ s.activeSubs p ↔ ∃ u ∈ s.seats p, q ∈ s.ownPlans u ∧ s.active q := by
  simp only [activeSubs, List.mem_flatMap, List.mem_filter]

theorem activeSubs_subset (p : String) : s.activeSubs p ⊆ s.subs p := by
  intro q hq
  obtain ⟨u, hu, hqu, -⟩ := mem_activeSubs.1 hq
  exact mem_subs.2 ⟨u, hu, hqu⟩

theorem Ranked.not_deep (hr : s.Ranked) (p : String) : ¬ Deep s.subs s.fuel p := by
  obtain ⟨rank, hrank⟩ := hr
  have hpresent : ∀ p q, q ∈ s.subs p → p ∈ s.plans := by
    intro p q hq
    obtain ⟨u, hu, -⟩ := mem_subs.1 hq
    exact mem_plans_of_seat hu
  -- the last plan of a way down may be gone, all others are there
  have htrim : ∀ n p, Deep s.subs (n + 1) p →
      Deep (fun p => (s.subs p).filter (· ∈ s.plans)) n p := by
    intro n
    induction n with
    | zero => exact fun _ _ => trivial
    | succ n ih =>
      intro p hd
      obtain ⟨q, hq, hdq⟩ := hd
      have hqp : q ∈ s.plans := by
        obtain ⟨r, hr, -⟩ := hdq
        exact hpresent q r hr
      exact ⟨q, List.mem_filter.2 ⟨hq, by simpa using hqp⟩, ih q hdq⟩
  intro hd
  have hp : p ∈ s.plans := by
    obtain ⟨q, hq, -⟩ := hd
    exact hpresent p q hq
  have hnodes : ∀ p q, q ∈ (s.subs p).filter (· ∈ s.plans) → q ∈ s.plans.keys := by
    intro p q hq
    exact Dict.mem_keys.2 (of_decide_eq_true (List.mem_filter.1 hq).2)
  have hup : ∀ p q, q ∈ (s.subs p).filter (· ∈ s.plans) → rank p < rank q := by
    intro p q hq
    exact hrank p q (List.mem_of_mem_filter hq)
  have hbound := (htrim _ p hd).bound hup hnodes (Dict.mem_keys.2 hp)
  rw [Dict.length_keys] at hbound
  omega

theorem Ranked.active_not_deep (hr : s.Ranked) (p : String) : ¬ Deep s.activeSubs s.fuel p := by
  intro hd
  exact hr.not_deep p (hd.mono activeSubs_subset)

section Linked
variable (h : Linked s)
include h

theorem Linked.parentUp_of_sub (hq : q ∈ s.subs p) : s.parentUp q = some p := by
  obtain ⟨u, hu, hqu⟩ := mem_subs.1 hq
  rw [parentUp, h.owned u p q hu hqu]
  exact h.seated u p hu

theorem Linked.activeSubs_nodup (p : String) : (s.activeSubs p).Nodup := by
  apply List.nodup_flatMap.2
  constructor
  · intro u _
    exact (s.ownPlans_nodup u).filter _
  · apply (s.seats_nodup p).pairwise_of_forall_ne
    intro u hu v hv hne q hq hq'
    have hqu := h.owned u p q hu (List.mem_of_mem_filter hq)
    have hqv := h.owned v p q hv (List.mem_of_mem_filter hq')
    exact hne (Option.some.inj (hqu.symm.trans hqv))

theorem Linked.subs_nodup (p : String) : (s.subs p).Nodup := by
  apply List.nodup_flatMap.2
  constructor
  · intro u _
    exact s.ownPlans_nodup u
  · apply (s.seats_nodup p).pairwise_of_forall_ne
    intro u hu v hv hne q hqu hqv
    exact hne (Option.some.inj ((h.owned u p q hu hqu).symm.trans (h.owned v p q hv hqv)))

/-- The users are those that sit on the plans that are met, each as often. -/
theorem Linked.getUsersByPlanName_perm {n : Nat} {l : List String} (hl : s.getUsersByPlanName (n + 1) p = .ok l) :
    l.Perm ((descend s.subs (n + 1) p).flatMap s.seats) := by
  induction n generalizing p l with
  | zero =>
    rw [getUsersByPlanName] at hl
    cases hP : s.plans.get? p with
    | none =>
      rw [hP] at hl
      cases hl
    | some P =>
      rw [hP] at hl
      dsimp only at hl
      rw [Collect.concatM_eq (g := fun o => [o]) fun o _ => if_pos rfl, List.flatMap_singleton'] at hl
      cases hl
      have hdescend : descend s.subs 1 p = [p] := by
        have hnone : (s.subs p).flatMap (descend s.subs 0) = [] := List.flatMap_eq_nil_iff.2 fun _ _ => rfl
        rw [descend, hnone]
      rw [hdescend, List.flatMap_singleton, seats_of_get? hP]
  | succ n ih =>
    rw [getUsersByPlanName] at hl
    cases hP : s.plans.get? p with
    | none =>
      rw [hP] at hl
      cases hl
    | some P =>
      rw [hP] at hl
      dsimp only at hl
      obtain ⟨g, hg, rfl⟩ := Collect.concatM_inv hl
      rw [← seats_of_get? hP] at hg ⊢
      have hpart : ∀ o ∈ s.seats p, (g o).Perm
          (o :: ((s.ownPlans o).flatMap (descend s.subs (n + 1))).flatMap s.seats) := by
        intro o ho
        obtain ⟨U, hU⟩ := Dict.mem_iff.1 (h.user_mem ho)
        have hgo := hg o ho
        rw [if_neg (Nat.succ_ne_zero n), hU] at hgo
        dsimp only at hgo
        rw [← ownPlans_of_get? hU] at hgo
        obtain ⟨below, hbelow, hgo⟩ := Collect.bind_ok.1 hgo
        obtain ⟨f, hf, rfl⟩ := Collect.concatM_inv hbelow
        rw [← Except.ok.inj hgo, List.flatMap_assoc]
        apply List.Perm.cons
        apply List.Perm.flatMap_left
        intro i hi
        exact ih (hf i hi)
      have hall := List.Perm.flatMap_left (s.seats p) hpart
      refine hall.trans ?_
      rw [descend, List.flatMap_cons, subs]
      have hcons := List.map_append_flatMap_perm (s.seats p) id
        fun o => ((s.ownPlans o).flatMap (descend s.subs (n + 1))).flatMap s.seats
      rw [List.map_id] at hcons
      simp only [List.flatMap_assoc] at hcons ⊢
      exact hcons.symm

/-- No user is listed twice below a plan of a forest. -/
theorem Linked.getUsersByPlanName_nodup (hr : s.Ranked) {n : Nat} {l : List String}
    (hl : s.getUsersByPlanName (n + 1) p = .ok l) : l.Nodup := by
  obtain ⟨rank, hrank⟩ := hr
  have hparent : ∀ x y q, q ∈ s.subs x → q ∈ s.subs y → x = y := fun x y q hx hy =>
    Option.some.inj ((h.parentUp_of_sub hx).symm.trans (h.parentUp_of_sub hy))
  apply (h.getUsersByPlanName_perm hl).nodup_iff.2
  apply List.nodup_flatMap.2
  constructor
  · intro q _
    exact s.seats_nodup q
  · have hplans : (descend s.subs (n + 1) p).Nodup :=
      List.nodup_iff_count_le_one.2 fun x => count_descend_le_one hrank h.subs_nodup hparent (n + 1) p x
    apply hplans.pairwise_of_forall_ne
    intro x _ y _ hne u hx hy
    exact hne (Option.some.inj ((h.seated u x hx).symm.trans (h.seated u y hy)))

/-- Where the nesting ends, the recursion of the totals returns the sum over the plans below. -/
theorem Linked.total_eq (m : Measure) {n : Nat} (hP : s.plans.get? p = some P)
    (hd : ¬ Deep s.activeSubs n p) :
    s.total m n P = .ok (weight s.activeSubs (s.charge m) n p) := by
  induction n generalizing p P with
  | zero => exact (hd trivial).elim
  | succ n ih =>
    rw [total, Collect.sumM_eq (g := fun u => ((s.users.get? u).map m.weigh).getD 0 +
      (((s.ownPlans u).filter s.active).map (weight s.activeSubs (s.charge m) n)).sum)]
    · rw [← seats_of_get? hP, List.sum_map_add, weight, charge, activeSubs, Collect.sum_map_flatMap]
    · intro u hu
      rw [← seats_of_get? hP] at hu
      obtain ⟨U, hU⟩ := Dict.mem_iff.1 (h.user_mem hu)
      rw [hU]
      dsimp only
      rw [Collect.sumM_eq (g := fun q =>
        if s.active q then weight s.activeSubs (s.charge m) n q else 0)]
      · rw [← ownPlans_of_get? hU, ← Collect.sum_map_filter]
        rfl
      · intro q hq
        rw [← ownPlans_of_get? hU] at hq
        obtain ⟨Q, hQ⟩ := Dict.mem_iff.1 (h.sub_mem hu hq)
        rw [hQ, active_of_get? hQ]
        dsimp only
        cases hs : Q.suspended.truthy with
        | true => rfl
        | false =>
          have hact : s.active q = true := by rw [active_of_get? hQ, hs]; rfl
          have hsub : q ∈ s.activeSubs p := mem_activeSubs.2 ⟨u, hu, hq, hact⟩
          exact ih hQ fun hdq => hd ⟨q, hsub, hdq⟩

theorem Linked.total_load (hr : s.Ranked) (m : Measure) (hP : s.plans.get? p = some P) :
    s.total m s.fuel P = .ok (s.load m p) := h.total_eq m hP (hr.active_not_deep p)

/-- A plan is met going down from another one at most as often as the climb meets that one. -/
theorem Linked.count_le (n : Nat) (p x : String) :
    (descend s.activeSubs n p).count x ≤ (climb s.parentUp n x).count p :=
  count_descend_le h.activeSubs_nodup
    (fun p _ hq => h.parentUp_of_sub (activeSubs_subset p hq)) n p x

end Linked
end Store
end JXPanel

import JXPanel.Totals
import JXPanel.Effects

namespace JXPanel
set_option autoImplicit true

open Hierarchy

/-- A call comes to an end, be it by throwing. -/
def Halts {α : Type} (r : Js α) : Prop := r ≠ .error .stackOverflow ∧ r ≠ .error .hangs

theorem halts_ok {α : Type} (a : α) : Halts (.ok a : Js α) := ⟨by simp, by simp⟩

theorem halts_thrown {α : Type} (msg : String) : Halts (.error (.thrown msg) : Js α) :=
  ⟨by simp, by simp⟩

theorem halts_typeError {α : Type} : Halts (.error .typeError : Js α) := ⟨by simp, by simp⟩

theorem Halts.bind {α β : Type} {x : Js α} {f : α → Js β} (hx : Halts x)
    (hf : ∀ a, x = .ok a → Halts (f a)) : Halts (x >>= f) := by
  cases x with
  | error e =>
    refine ⟨fun h => hx.1 ?_, fun h => hx.2 ?_⟩
    · cases h
      rfl
    · cases h
      rfl
  | ok a => exact hf a rfl

theorem Halts.sumM {α : Type} {f : α → Js Nat} {l : List α} (h : ∀ x ∈ l, Halts (f x)) :
    Halts (Collect.sumM f l) := by
  induction l with
  | nil => exact halts_ok 0
  | cons x l ih =>
    apply (h x List.mem_cons_self).bind
    intro a _
    apply (ih fun y hy => h y (List.mem_cons_of_mem _ hy)).bind
    intro b _
    exact halts_ok (a + b)

theorem Halts.concatM {α β : Type} {f : α → Js (List β)} {l : List α}
    (h : ∀ x ∈ l, Halts (f x)) : Halts (Collect.concatM f l) := by
  induction l with
  | nil => exact halts_ok []
  | cons x l ih =>
    apply (h x List.mem_cons_self).bind
    intro a _
    apply (ih fun y hy => h y (List.mem_cons_of_mem _ hy)).bind
    intro b _
    exact halts_ok (a ++ b)

namespace Store

/-- The names that `user_folders.getUserPath` makes its directories of, from the top down. -/
def pathPlans (s : Store) : Nat → String → Js (List String)
  | 0, subplan => if subplan = "" then .ok [] else .error .hangs
  | n + 1, subplan =>
    if subplan = "" then .ok []
    else match s.getParentPlanName subplan with
      | none => .ok [subplan]
      | some parent => do
        let above ← pathPlans s n parent
        return above ++ [subplan]

variable {s : Store}

/-- The counts come to an end when no way down from the plan is as long as they may recurse. -/
theorem halts_total (m : Measure) {n : Nat} (hP : s.plans.get? p = some P)
    (hd : ¬ Deep s.subs n p) : Halts (s.total m n P) := by
  induction n generalizing p P with
  | zero => exact (hd trivial).elim
  | succ n ih =>
    rw [total]
    apply Halts.sumM
    intro u hu
    rw [← seats_of_get? hP] at hu
    cases hU : s.users.get? u with
    | none => exact halts_ok 0
    | some U =>
      apply Halts.bind _ fun below _ => halts_ok _
      apply Halts.sumM
      intro q hq
      rw [← ownPlans_of_get? hU] at hq
      cases hQ : s.plans.get? q with
      | none => exact halts_typeError
      | some Q =>
        dsimp only
        split
        · exact halts_ok 0
        · apply ih hQ
          intro hdq
          exact hd ⟨q, mem_subs.2 ⟨u, hu, hq⟩, hdq⟩

/-- A depth beyond that of the hierarchy makes no difference to a traversal. -/
theorem getUsersByPlanName_stable {n d e : Nat} (hn : ¬ Deep s.subs n p) (hd : n ≤ d)
    (he : n ≤ e) : s.getUsersByPlanName d p = s.getUsersByPlanName e p := by
  induction n generalizing p d e with
  | zero => exact (hn trivial).elim
  | succ n ih =>
    obtain ⟨d, rfl⟩ := Nat.exists_eq_add_of_le' (Nat.le_trans (Nat.le_add_left 1 n) hd)
    obtain ⟨e, rfl⟩ := Nat.exists_eq_add_of_le' (Nat.le_trans (Nat.le_add_left 1 n) he)
    rw [getUsersByPlanName, getUsersByPlanName]
    cases hP : s.plans.get? p with
    | none => rfl
    | some P =>
      apply Collect.concatM_congr
      intro u hu
      rw [← seats_of_get? hP] at hu
      cases hU : s.users.get? u with
      | none => simp only [ite_self]
      | some U =>
        have hkid : ∀ q ∈ U.subPlans.keys, ¬ Deep s.subs n q := by
          intro q hq hdq
          rw [← ownPlans_of_get? hU] at hq
          exact hn ⟨q, mem_subs.2 ⟨u, hu, hq⟩, hdq⟩
        cases n with
        | zero =>
          have hnone : U.subPlans.keys = [] := by
            apply List.eq_nil_iff_forall_not_mem.2
            intro q hq
            exact hkid q hq trivial
          have hall : ∀ d, (if d = 0 then Except.ok [u] else
              (Collect.concatM (s.getUsersByPlanName d) U.subPlans.keys >>=
                fun below => .ok (u :: below)) : Js (List String)) = .ok [u] := by
            intro d
            rw [hnone]
            split <;> rfl
          exact (hall d).trans (hall e).symm
        | succ n =>
          have hdpos : d ≠ 0 := by omega
          have hepos : e ≠ 0 := by omega
          have hsame := Collect.concatM_congr fun q hq =>
            ih (hkid q hq) (show n + 1 ≤ d by omega) (show n + 1 ≤ e by omega)
          simp only [if_neg hdpos, if_neg hepos, hsame]

theorem getPlansByUserName_stable {n d e : Nat}
    (hn : ∀ q ∈ s.ownPlans u, ¬ Deep s.subs n q) (hd : n < d) (he : n < e) :
    s.getPlansByUserName d u = s.getPlansByUserName e u := by
  induction n generalizing u d e with
  | zero =>
    obtain ⟨d, rfl⟩ := Nat.exists_eq_add_of_le' hd
    obtain ⟨e, rfl⟩ := Nat.exists_eq_add_of_le' he
    rw [getPlansByUserName, getPlansByUserName]
    cases hU : s.users.get? u with
    | none => rfl
    | some U =>
      have hnone : U.subPlans.keys = [] := by
        apply List.eq_nil_iff_forall_not_mem.2
        intro q hq
        rw [← ownPlans_of_get? hU] at hq
        exact hn q hq trivial
      dsimp only
      rw [hnone]
      rfl
  | succ n ih =>
    obtain ⟨d, rfl⟩ := Nat.exists_eq_add_of_le' (Nat.lt_of_le_of_lt (Nat.zero_le _) hd)
    obtain ⟨e, rfl⟩ := Nat.exists_eq_add_of_le' (Nat.lt_of_le_of_lt (Nat.zero_le _) he)
    rw [getPlansByUserName, getPlansByUserName]
    cases hU : s.users.get? u with
    | none => rfl
    | some U =>
      apply Collect.concatM_congr
      intro q hq
      rw [← ownPlans_of_get? hU] at hq
      have hdpos : d ≠ 0 := by omega
      have hepos : e ≠ 0 := by omega
      simp only [if_neg hdpos, if_neg hepos]
      cases hQ : s.plans.get? q with
      | none => rfl
      | some Q =>
        have hsame : Collect.concatM (s.getPlansByUserName d) Q.users.keys =
            Collect.concatM (s.getPlansByUserName e) Q.users.keys := by
          apply Collect.concatM_congr
          intro v hv
          rw [← seats_of_get? hQ] at hv
          apply ih _ (show n < d by omega) (show n < e by omega)
          intro r hr hdr
          exact hn q hq ⟨r, mem_subs.2 ⟨v, hv, hr⟩, hdr⟩
        simp only [hsame]

theorem halts_getUsersByPlanName (d : Nat) (p : String) : Halts (s.getUsersByPlanName d p) := by
  induction d generalizing p with
  | zero =>
    rw [getUsersByPlanName]
    cases s.plans.get? p with
    | none => exact halts_thrown _
    | some P => exact halts_ok _
  | succ d ih =>
    rw [getUsersByPlanName]
    cases s.plans.get? p with
    | none => exact halts_thrown _
    | some P =>
      apply Halts.concatM
      intro u _
      split
      · exact halts_ok _
      · cases s.users.get? u with
        | none => exact halts_ok _
        | some U =>
          apply Halts.bind _ fun below _ => halts_ok _
          exact Halts.concatM fun q _ => ih q

theorem halts_getPlansByUserName (d : Nat) (u : String) : Halts (s.getPlansByUserName d u) := by
  induction d generalizing u with
  | zero =>
    rw [getPlansByUserName]
    cases s.users.get? u with
    | none => exact halts_thrown _
    | some U => exact halts_ok _
  | succ d ih =>
    rw [getPlansByUserName]
    cases s.users.get? u with
    | none => exact halts_thrown _
    | some U =>
      apply Halts.concatM
      intro q _
      split
      · exact halts_ok _
      · cases s.plans.get? q with
        | none => exact halts_typeError
        | some Q =>
          apply Halts.bind _ fun below _ => halts_ok _
          exact Halts.concatM fun v _ => ih v

theorem halts_getUsersByUserName (u : String) (d : Nat) : Halts (s.getUsersByUserName u d) := by
  rw [getUsersByUserName]
  cases s.users.get? u with
  | none => exact halts_thrown _
  | some U => exact Halts.concatM fun q _ => halts_getUsersByPlanName d q

theorem halts_getPlansByPlanName (p : String) (d : Nat) : Halts (s.getPlansByPlanName p d) := by
  rw [getPlansByPlanName]
  apply (halts_getUsersByPlanName d p).bind
  intro users _
  apply Halts.bind _ fun plans _ => halts_ok _
  exact Halts.concatM fun u _ => halts_getPlansByUserName d u

theorem halts_getDomainsByUserName (u : String) (d : Nat) :
    Halts (s.getDomainsByUserName u d) := by
  rw [getDomainsByUserName]
  cases s.users.get? u with
  | none => exact halts_thrown _
  | some U =>
    dsimp only
    split
    · exact halts_ok _
    · apply (halts_getUsersByUserName u (d - 1)).bind
      intro users _
      apply Halts.bind _ fun below _ => halts_ok _
      apply Halts.concatM
      intro v _
      cases s.users.get? v with
      | none => exact halts_typeError
      | some V => exact halts_ok _

theorem halts_getDomainsByPlanName (p : String) (d : Nat) :
    Halts (s.getDomainsByPlanName p d) := by
  rw [getDomainsByPlanName]
  apply (halts_getUsersByPlanName 1 p).bind
  intro users _
  exact Halts.concatM fun u _ => halts_getDomainsByUserName u d

/-- A traversal ends, and no plan is so deep that its depth is what ends it. -/
def Settles {α : Type} (n : Nat) (f : Nat → Js α) : Prop :=
  ∀ d, Halts (f d) ∧ (n ≤ d → f d = f n)

structure TraversalsEnd (s : Store) : Prop where
  usersByPlan : ∀ p, Settles (s.fuel + 1) fun d => s.getUsersByPlanName d p
  usersByUser : ∀ u, Settles (s.fuel + 1) fun d => s.getUsersByUserName u d
  plansByUser : ∀ u, Settles (s.fuel + 1) fun d => s.getPlansByUserName d u
  plansByPlan : ∀ p, Settles (s.fuel + 1) fun d => s.getPlansByPlanName p d
  domainsByUser : ∀ u, Settles (s.fuel + 1) fun d => s.getDomainsByUserName u d
  domainsByPlan : ∀ p, Settles (s.fuel + 1) fun d => s.getDomainsByPlanName p d

theorem Ranked.traversalsEnd (hr : s.Ranked) : TraversalsEnd s := by
  have husers : ∀ d e, s.fuel ≤ d → s.fuel ≤ e → s.getUsersByPlanName d = s.getUsersByPlanName e := by
    intro d e hd he
    funext p
    exact getUsersByPlanName_stable (hr.not_deep p) hd he
  have hplans : ∀ d e, s.fuel < d → s.fuel < e → s.getPlansByUserName d = s.getPlansByUserName e := by
    intro d e hd he
    funext u
    exact getPlansByUserName_stable (fun q _ => hr.not_deep q) hd he
  have hdomains : ∀ d e u, s.fuel < d → s.fuel < e →
      s.getDomainsByUserName u d = s.getDomainsByUserName u e := by
    intro d e u hd he
    have hpos : 0 < s.fuel := Nat.succ_pos _
    have hd1 : ¬ d ≤ 1 := by omega
    have he1 : ¬ e ≤ 1 := by omega
    simp only [getDomainsByUserName, getUsersByUserName, if_neg hd1, if_neg he1]
    rw [husers (d - 1) (e - 1) (by omega) (by omega)]
  constructor
  · intro p d
    refine ⟨halts_getUsersByPlanName d p, fun hd => ?_⟩
    exact congrFun (husers d _ (by omega) (by omega)) p
  · intro u d
    refine ⟨halts_getUsersByUserName u d, fun hd => ?_⟩
    simp only [getUsersByUserName]
    rw [husers d (s.fuel + 1) (by omega) (by omega)]
  · intro u d
    refine ⟨halts_getPlansByUserName d u, fun hd => ?_⟩
    exact congrFun (hplans d _ (by omega) (by omega)) u
  · intro p d
    refine ⟨halts_getPlansByPlanName p d, fun hd => ?_⟩
    simp only [getPlansByPlanName]
    rw [husers d (s.fuel + 1) (by omega) (by omega), hplans d (s.fuel + 1) (by omega) (by omega)]
  · intro u d
    exact ⟨halts_getDomainsByUserName u d, fun hd => hdomains d _ u (by omega) (by omega)⟩
  · intro p d
    refine ⟨halts_getDomainsByPlanName p d, fun hd => ?_⟩
    simp only [getDomainsByPlanName]
    have hsame : (fun u => s.getDomainsByUserName u d) =
        fun u => s.getDomainsByUserName u (s.fuel + 1) := by
      funext u
      exact hdomains d _ u (by omega) (by omega)
    rw [hsame]

section Up
variable {n : Nat}

/-- The loop of the checks ends where the climb to the top plan does. -/
theorem halts_walkUp (hr : s.Ranked) (m : Measure) (hP : s.plans.get? p = some P)
    (he : Ends s.parentUp (n + 1) p) : Halts (s.walkUp m n (s.users.get? P.owner)) := by
  have hup : s.parentUp p = s.planOf P.owner := by
    rw [parentUp, ownerOf_of_get? hP]
    rfl
  induction n generalizing p P with
  | zero =>
    cases hU : s.users.get? P.owner with
    | none => exact halts_ok none
    | some U =>
      rw [planOf_of_get? hU] at hup
      exact (he _ hup).elim
  | succ n ih =>
    cases hU : s.users.get? P.owner with
    | none => exact halts_ok none
    | some U =>
      rw [planOf_of_get? hU] at hup
      rw [walkUp]
      split
      · exact halts_ok none
      · cases hQ : s.plans.get? U.plan with
        | none => exact halts_typeError
        | some Q =>
          apply (halts_total m hQ (hr.not_deep _)).bind
          intro count _
          split
          · exact halts_ok _
          · split
            · exact halts_ok none
            · apply ih hQ (he _ hup)
              rw [parentUp, ownerOf_of_get? hQ]
              rfl

theorem getParentPlanName_up (h : s.getParentPlanName p = some q) : s.parentUp p = some q := by
  unfold getParentPlanName at h
  split at h
  · cases h
  · rename_i P hP
    split at h
    · cases h
    · rename_i U hU
      split at h
      · cases h
      · rw [parentUp, ownerOf_of_get? hP]
        exact (planOf_of_get? hU).trans h

theorem parentPlan_up (hP : P.name = p) (h : s.parentPlan P = some Q) :
    ∃ q, s.parentUp p = some q ∧ s.plans.get? q = some Q := by
  unfold parentPlan at h
  split at h
  · cases h
  · split at h
    · cases h
    · rename_i q hq
      split at h
      · cases h
      · exact ⟨q, getParentPlanName_up (hP ▸ hq), h⟩

theorem halts_pathPlans (he : Ends s.parentUp n p) : Halts (s.pathPlans n p) := by
  induction n generalizing p with
  | zero => exact he.elim
  | succ n ih =>
    rw [pathPlans]
    split
    · exact halts_ok []
    · cases hq : s.getParentPlanName p with
      | none => exact halts_ok [p]
      | some q =>
        apply (ih (he q (getParentPlanName_up hq))).bind
        intro above _
        exact halts_ok _

section Names
variable (hname : ∀ p P, s.plans.get? p = some P → P.name = p)
include hname

theorem halts_getMaximum (f : String) (hP : s.plans.get? p = some P)
    (he : Ends s.parentUp n p) : Halts (s.getMaximum f n P) := by
  induction n generalizing p P with
  | zero => exact he.elim
  | succ n ih =>
    rw [getMaximum]
    split
    · exact halts_ok _
    · cases hQ : s.parentPlan P with
      | none => exact halts_ok _
      | some Q =>
        obtain ⟨q, hup, hq⟩ := parentPlan_up (hname p P hP) hQ
        apply (ih hq (he q hup)).bind
        intro v _
        exact halts_ok _

theorem halts_getBool (f : String) (hP : s.plans.get? p = some P)
    (he : Ends s.parentUp n p) : Halts (s.getBool f n P) := by
  induction n generalizing p P with
  | zero => exact he.elim
  | succ n ih =>
    rw [getBool]
    split
    · exact halts_ok _
    · cases hQ : s.parentPlan P with
      | none => exact halts_ok _
      | some Q =>
        obtain ⟨q, hup, hq⟩ := parentPlan_up (hname p P hP) hQ
        apply (ih hq (he q hup)).bind
        intro v _
        exact halts_ok _

end Names
end Up

/-- The climb from every plan to the top comes to an end. -/
def Climbs (s : Store) : Prop := ∀ p, ∃ n, Ends s.parentUp n p

theorem Climbs.ends (h : Climbs s) (p : String) : Ends s.parentUp s.fuel p := by
  obtain ⟨n, hn⟩ := h p
  have hnodes : ∀ m y, y ∈ climb s.parentUp m p → (s.parentUp y).isSome → y ∈ s.plans.keys := by
    intro m y _ hy
    obtain ⟨z, hz⟩ := Option.isSome_iff_exists.1 hy
    obtain ⟨o, ho, -⟩ := Option.bind_eq_some_iff.1 hz
    exact Dict.mem_keys.2 (mem_plans_of_ownerOf ho)
  have hbound := hn.bound s.plans.keys hnodes
  rwa [Dict.length_keys] at hbound

theorem Climbs.wellFounded (h : Climbs s) :
    WellFounded fun q p => s.parentUp p = some q := by
  constructor
  intro p
  obtain ⟨n, hn⟩ := h p
  exact hn.acc

/-- Every loop and recursion over the plans of a store comes to an end. -/
structure WalksEnd (s : Store) : Prop where
  checkAddUser : ∀ p P, s.plans.get? p = some P → Halts (s.checkAddUser P)
  checkAddDomain : ∀ p P, s.plans.get? p = some P → Halts (s.checkAddDomain P)
  totalUsers : ∀ p P, s.plans.get? p = some P → Halts (s.totalActiveUsers P)
  totalDomains : ∀ p P, s.plans.get? p = some P → Halts (s.totalActiveDomains P)
  maximum : ∀ f p P, s.plans.get? p = some P → Halts (s.GetMaximum P f)
  bool : ∀ f p P, s.plans.get? p = some P → Halts (s.GetBool P f)
  path : ∀ p, Halts (s.pathPlans s.fuel p)
  traversals : TraversalsEnd s

theorem Climbs.halts_checkTotal (h : Climbs s) (hr : s.Ranked) (m : Measure)
    (hP : s.plans.get? p = some P) : Halts (s.checkTotal m P) := by
  rw [checkTotal]
  apply (halts_total m hP (hr.not_deep p)).bind
  intro count _
  split
  · exact halts_ok _
  · exact halts_walkUp hr m hP ((h.ends p).mono (Nat.le_succ _))

theorem Climbs.walksEnd (h : Climbs s) (hr : s.Ranked)
    (hname : ∀ p P, s.plans.get? p = some P → P.name = p) : WalksEnd s where
  checkAddUser p P hP := by
    unfold Store.checkAddUser
    split
    · exact halts_ok _
    · split
      · exact halts_ok _
      · exact h.halts_checkTotal hr userMeasure hP
  checkAddDomain p P hP := by
    unfold Store.checkAddDomain
    split
    · exact halts_ok _
    · exact h.halts_checkTotal hr domainMeasure hP
  totalUsers p P hP := halts_total userMeasure hP (hr.not_deep p)
  totalDomains p P hP := halts_total domainMeasure hP (hr.not_deep p)
  maximum f p P hP := halts_getMaximum hname f hP (h.ends p)
  bool f p P hP := halts_getBool hname f hP (h.ends p)
  path p := halts_pathPlans (h.ends p)
  traversals := hr.traversalsEnd

end Store
end JXPanel

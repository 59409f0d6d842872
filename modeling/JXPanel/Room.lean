import JXPanel.Shrinking

namespace JXPanel
set_option autoImplicit true

open Hierarchy

/-- The two measures that plans are limited in. -/
inductive Measure.Counts : Measure → Prop
  | user : Counts userMeasure
  | domain : Counts domainMeasure

theorem Measure.Counts.weigh_le (hm : Measure.Counts m) (U' U : User) (h : U'.Within U) :
    m.weigh U' ≤ m.weigh U := by
  cases hm with
  | user => exact Nat.le_refl _
  | domain => exact h.domains

theorem Measure.Counts.limit_eq (hm : Measure.Counts m) (h : P'.Within P) :
    m.limit P' = m.limit P := by
  cases hm with
  | user => exact h.maxUserCount
  | domain => exact h.maxDomainCount

theorem Measure.Counts.weigh_core (hm : Measure.Counts m) (U : User) :
    m.weigh U.core = m.weigh U := by
  cases hm <;> rfl

namespace Store

/-- A plan that one more may be charged to. -/
def Room (s : Store) (m : Measure) (p : String) : Prop :=
  ∃ P t, s.plans.get? p = some P ∧ s.total m s.fuel P = .ok t ∧ (m.limit P).le (.ofNat t) = false

/-- The names that end the loop of the checks are not in use. -/
structure Named (s : Store) : Prop where
  plan : ∀ p P, s.plans.get? p = some P → P.name = p ∧ p ≠ "" ∧ P.owner ≠ ""
  user : ∀ u U, s.users.get? u = some U → U.name = u ∧ u ≠ "" ∧ U.plan ≠ ""

/-- No plan that is not suspended is charged more than it allows. -/
def InQuota (s : Store) : Prop :=
  ∀ m, Measure.Counts m → ∀ p P, s.plans.get? p = some P →
    ∃ n, m.limit P = .ofNat n ∧ (s.active p = true → s.load m p ≤ n)

structure Sound (s : Store) : Prop where
  linked : Linked s
  ranked : s.Ranked
  named : Named s
  quota : InQuota s

variable {s s' : Store}

theorem parentUp_of_get? (hP : s.plans.get? p = some P) : s.parentUp p = s.planOf P.owner := by
  rw [parentUp, ownerOf_of_get? hP]
  rfl

/-- A walk that refuses nothing came to an end, and every plan above had room. -/
theorem Named.walkUp_ok (h : Named s) {n : Nat} (hP : s.plans.get? p = some P)
    (hw : s.walkUp m n (s.users.get? P.owner) = .ok none) :
    Ends s.parentUp (n + 1) p ∧ ∀ x ∈ climb s.parentUp (n + 1) p, x = p ∨ s.Room m x := by
  have hup := parentUp_of_get? hP
  induction n generalizing p P with
  | zero =>
    cases hU : s.users.get? P.owner with
    | none =>
      rw [planOf, hU] at hup
      refine ⟨fun y hy => ?_, fun x hx => ?_⟩
      · rw [hup] at hy
        cases hy
      · rw [climb, hup] at hx
        exact .inl (by simpa using hx)
    | some U =>
      rw [hU] at hw
      cases hw
  | succ n ih =>
    cases hU : s.users.get? P.owner with
    | none =>
      rw [planOf, hU] at hup
      refine ⟨fun y hy => ?_, fun x hx => ?_⟩
      · rw [hup] at hy
        cases hy
      · rw [climb, hup] at hx
        exact .inl (by simpa using hx)
    | some U =>
      rw [hU, walkUp, if_neg (h.user _ U hU).2.2] at hw
      rw [planOf_of_get? hU] at hup
      cases hQ : s.plans.get? U.plan with
      | none =>
        rw [hQ] at hw
        cases hw
      | some Q =>
        rw [hQ] at hw
        obtain ⟨t, ht, hw⟩ := Collect.bind_ok.1 hw
        cases hle : (m.limit Q).le (.ofNat t) with
        | true =>
          rw [hle] at hw
          cases hw
        | false =>
          rw [hle, if_neg Bool.false_ne_true] at hw
          rw [if_neg (h.plan _ Q hQ).2.2] at hw
          obtain ⟨hends, hroom⟩ := ih hQ hw (parentUp_of_get? hQ)
          refine ⟨fun y hy => ?_, fun x hx => ?_⟩
          · rw [hup] at hy
            cases hy
            exact hends
          · rw [climb, hup] at hx
            rcases List.mem_cons.1 hx with hx | hx
            · exact .inl hx
            · rcases hroom x hx with rfl | hr
              · exact .inr ⟨Q, t, hQ, ht, hle⟩
              · exact .inr hr

/-- A check that refuses nothing found room in the plan and in every plan above it. -/
theorem Named.checkTotal_ok (h : Named s) (hP : s.plans.get? p = some P)
    (hc : s.checkTotal m P = .ok none) :
    Ends s.parentUp (s.fuel + 1) p ∧ ∀ x ∈ climb s.parentUp (s.fuel + 1) p, s.Room m x := by
  rw [checkTotal] at hc
  obtain ⟨t, ht, hc⟩ := Collect.bind_ok.1 hc
  cases hle : (m.limit P).le (.ofNat t) with
  | true =>
    rw [hle] at hc
    cases hc
  | false =>
    rw [hle, if_neg Bool.false_ne_true] at hc
    obtain ⟨hends, hroom⟩ := h.walkUp_ok hP hc
    refine ⟨hends, fun x hx => ?_⟩
    rcases hroom x hx with rfl | hr
    · exact ⟨P, t, hP, ht, hle⟩
    · exact hr

/-- What a plan is charged for a user. -/
def weighs (s : Store) (m : Measure) (u : String) : Nat := ((s.users.get? u).map m.weigh).getD 0

theorem charge_eq (s : Store) (m : Measure) (p : String) :
    s.charge m p = ((s.seats p).map (s.weighs m)).sum := rfl

section Charged
variable (h : Sound s)
include h

/-- Where a check found room, one more charge takes no plan beyond its limit. -/
theorem Sound.load_charged (hk : s'.activeSubs = s.activeSubs) (hf : s'.fuel = s.fuel)
    (hc : ∀ q, s'.charge m q ≤ s.charge m q + if q = x then 1 else 0)
    (hX : s.plans.get? x = some X) (hchk : s.checkTotal m X = .ok none)
    (hP : s.plans.get? p = some P) (hn : m.limit P = .ofNat n) (hl : s.load m p ≤ n) :
    s'.load m p ≤ n := by
  obtain ⟨hends, hroom⟩ := h.named.checkTotal_ok hX hchk
  have hbump : s'.load m p ≤ s.load m p + (descend s.activeSubs s.fuel p).count x := by
    rw [load, load, hk, hf]
    exact weight_bump hc s.fuel p
  have hcount := h.linked.count_le s.fuel p x
  by_cases hp : p ∈ climb s.parentUp s.fuel x
  · have hone : (climb s.parentUp s.fuel x).count p ≤ 1 :=
      List.nodup_iff_count_le_one.1 hends.climb_nodup p
    obtain ⟨P', t, hP', ht, hle⟩ := hroom p (climb_subset (Nat.le_succ _) x hp)
    obtain rfl := Option.some.inj (hP.symm.trans hP')
    rw [h.linked.total_load h.ranked m hP] at ht
    cases ht
    rw [hn, JsVal.ofNat_le] at hle
    have hlt := of_decide_eq_false hle
    omega
  · rw [List.count_eq_zero_of_not_mem hp] at hcount
    omega

/-- A store whose plans list no more and are charged no more is within its quotas as well. -/
theorem Sound.of_lighter (hl : Linked s') (hw : Lighter s s') : Sound s' := by
  refine ⟨hl, hw.ranked h.ranked, ⟨?_, ?_⟩, ?_⟩
  · intro p P' hP'
    obtain ⟨P, hP, hwithin, -⟩ := hw.plan p P' hP'
    rw [hwithin.name, hwithin.owner]
    exact h.named.plan p P hP
  · intro u U' hU'
    obtain ⟨U, hU, hwithin⟩ := hw.user u U' hU'
    rw [hwithin.name, hwithin.plan]
    exact h.named.user u U hU
  · intro m hm p P' hP'
    obtain ⟨P, hP, hwithin, -⟩ := hw.plan p P' hP'
    obtain ⟨n, hn, hload⟩ := h.quota m hm p P hP
    refine ⟨n, (hm.limit_eq hwithin).trans hn, fun hact => ?_⟩
    exact (hw.load hm.weigh_le p).trans (hload (hw.active hact))

theorem Sound.of_shrinks (hs : Shrinks s s') : Sound s' :=
  h.of_lighter (hs.linked h.linked) hs.lighter

/-- What a plan may be charged more without going beyond a limit that it was within. -/
theorem Sound.charged (hl : Linked s') (hr : s'.Ranked) (hn : Named s')
    (hplan : ∀ p P', s'.plans.get? p = some P' → ∃ P, s.plans.get? p = some P ∧
      (∀ m, Measure.Counts m → m.limit P' = m.limit P) ∧ s'.active p = s.active p)
    (hload : ∀ m, Measure.Counts m → ∀ p P n, s.plans.get? p = some P → m.limit P = .ofNat n →
      s.load m p ≤ n → s'.load m p ≤ n) : Sound s' := by
  refine ⟨hl, hr, hn, fun m hm p P' hP' => ?_⟩
  obtain ⟨P, hP, hlim, hact⟩ := hplan p P' hP'
  obtain ⟨n, hn, hle⟩ := h.quota m hm p P hP
  refine ⟨n, (hlim m hm).trans hn, fun ha => ?_⟩
  rw [hact] at ha
  exact hload m hm p P n hP hn (hle ha)

end Charged

end Store
end JXPanel

import JXPanel.Effects

namespace JXPanel
set_option autoImplicit true

/-- A plan without the names of users that do not exist. -/
def Plan.prune (users : Dict String User) (p : Plan) : Plan :=
  { p with users := p.users.eraseAll (p.users.keys.filter (· ∉ users)) }

namespace Store

/-- The loop that looks for plans without an owner. What it finds to delete goes through
`deletePlan`, and what is deleted on the way is not met any more. -/
def fixPlans : List String → Store → Report → Store × Js Report
  | [], s, arr => (s, .ok arr)
  | name :: names, s, arr =>
    match s.plans.get? name with
    | none => fixPlans names s arr
    | some plan =>
      if plan.owner ∉ s.users ∧ plan.owner ≠ superUser then
        match s.deletePlan name with
        | (s', .error f) => (s', .error f)
        | (s', .ok ret) =>
          fixPlans names s' ⟨arr.plans ++ ret.plans, arr.users ++ ret.users, arr.domains ++ ret.domains⟩
      else
        fixPlans names (s.modifyPlan name (Plan.prune s.users)) arr

def fixDomains : List String → Store → Report → Store × Js Report
  | [], s, arr => (s, .ok arr)
  | name :: names, s, arr =>
    match s.domains.get? name with
    | none => fixDomains names s arr
    | some none => (s, .error .typeError)
    | some (some domain) =>
      if domain.owner ∉ s.users ∧ domain.owner ≠ superUser then
        fixDomains names (s.eraseDomain name) { arr with domains := arr.domains ++ [name] }
      else fixDomains names s arr

def fixUsers : List String → Store → Report → Store × Report
  | [], s, arr => (s, arr)
  | name :: names, s, arr =>
    match s.users.get? name with
    | none => fixUsers names s arr
    | some user =>
      if user.plan ∉ s.plans then
        fixUsers names (s.eraseUser name) { arr with users := arr.users ++ [name] }
      else fixUsers names s arr

/-- No delete of a plan ends without `deleted`, so that there are no errors to report. -/
def fixDatabase (s : Store) : Store × Js Report :=
  match fixPlans s.plans.keys s ⟨[], [], []⟩ with
  | (s', .error f) => (s', .error f)
  | (s', .ok arr) =>
    match fixDomains s'.domains.keys s' arr with
    | (s'', .error f) => (s'', .error f)
    | (s'', .ok arr) =>
      let r := fixUsers s''.users.keys s'' arr
      (r.1, .ok r.2)

end Store

section Sound

mutual
/-- A plan whose owners and their plans all exist, up to the root, and whose users exist. -/
inductive SoundPlan (s : Store) : String → Prop
  | root (h : s.plans.get? p = some P) (ho : P.owner = superUser) (hu : ∀ u ∈ P.users, u ∈ s.users) :
      SoundPlan s p
  | owned (h : s.plans.get? p = some P) (ho : SoundUser s P.owner) (hu : ∀ u ∈ P.users, u ∈ s.users) :
      SoundPlan s p

inductive SoundUser (s : Store) : String → Prop
  | mk (h : s.users.get? u = some U) (hp : SoundPlan s U.plan) (hq : ∀ q ∈ U.subPlans, q ∈ s.plans)
      (hd : ∀ d ∈ U.domains, d ∈ s.domains) : SoundUser s u
end

end Sound

namespace Store

/-- What a repaired store is like. -/
structure Repaired (s : Store) : Prop where
  planOwner : ∀ p P, s.plans.get? p = some P → P.owner ≠ superUser → P.owner ∈ s.users
  userPlan : ∀ u U, s.users.get? u = some U → U.plan ∈ s.plans
  domainOwner : ∀ d v, s.domains.get? d = some v → ∃ D, v = some D ∧ D.owner ∈ s.users
  users : ∀ p P, s.plans.get? p = some P → ∀ u ∈ P.users, u ∈ s.users
  subPlans : ∀ u U, s.users.get? u = some U → ∀ q ∈ U.subPlans, q ∈ s.plans
  domains : ∀ u U, s.users.get? u = some U → ∀ d ∈ U.domains, d ∈ s.domains

/-- Sound records stay as they are. -/
structure KeepsSound (s s' : Store) : Prop where
  plan : ∀ p, SoundPlan s p → s'.plans.get? p = s.plans.get? p
  user : ∀ u, SoundUser s u → s'.users.get? u = s.users.get? u
  domain : ∀ d D, s.getDomain? d = some D → SoundUser s D.owner → s'.domains.get? d = s.domains.get? d

/-- The repair ends, what it leaves is repaired, it spares what was sound, and a second one has
nothing to do. -/
def Repairs (s : Store) : Prop :=
  (∃ arr, s.fixDatabase.2 = .ok arr) ∧ Repaired s.fixDatabase.1 ∧ KeepsSound s s.fixDatabase.1 ∧
    s.fixDatabase.1.fixDatabase = (s.fixDatabase.1, .ok ⟨[], [], []⟩)

/-- A user who has a plan. -/
def Seated (s : Store) (u : String) : Prop := ∃ U, s.users.get? u = some U ∧ U.plan ∈ s.plans

/-- The damage is no more than stale names of users in plans, domains without an owner, and users
without a plan whom nothing refers to. -/
structure Repairable (s : Store) : Prop where
  plans : ∀ p P, s.plans.get? p = some P → P.owner = superUser ∨ s.Seated P.owner
  users : ∀ p P, s.plans.get? p = some P → ∀ u ∈ P.users, u ∈ s.users → s.Seated u
  domains : ∀ d v, s.domains.get? d = some v → ∃ D, v = some D ∧
    (D.owner ∈ s.users ∨ D.owner = superUser → s.Seated D.owner)
  subPlans : ∀ u U, s.users.get? u = some U → U.plan ∈ s.plans → ∀ q ∈ U.subPlans, q ∈ s.plans
  owned : ∀ u U, s.users.get? u = some U → U.plan ∈ s.plans → ∀ d ∈ U.domains,
    ∃ D, s.getDomain? d = some D ∧ s.Seated D.owner

/-- What can be told of the repair beforehand: every plan has an owner and no domain is `null`. -/
structure Endable (s : Store) : Prop where
  plans : ∀ p P, s.plans.get? p = some P → P.owner ∈ s.users ∨ P.owner = superUser
  domains : ∀ d, s.domains.get? d ≠ some none

/-- A domain that the repair leaves. -/
def spared (users : Dict String User) : Option Domain → Bool
  | none => true
  | some D => decide (D.owner ∈ users) || decide (D.owner = superUser)

/-- What a repair that ends makes of the records. -/
structure Fixed (s s' : Store) : Prop where
  plans : ∀ p, s'.plans.get? p = (s.plans.get? p).map (Plan.prune s.users)
  users : ∀ u, s'.users.get? u = (s.users.get? u).filter fun U => decide (U.plan ∈ s.plans)
  domains : ∀ d, s'.domains.get? d = (s.domains.get? d).filter (spared s.users)

variable {s s' : Store} {arr : Report} {names : List String} {p : String} {P : Plan}

theorem mem_prune {users : Dict String User} {u : String} :
    u ∈ (P.prune users).users ↔ u ∈ P.users ∧ u ∈ users := by
  rw [Plan.prune, Dict.mem_eraseAll, List.mem_filter]
  constructor
  · rintro ⟨hno, hu⟩
    refine ⟨hu, ?_⟩
    by_contra hgone
    exact hno ⟨hu, decide_eq_true hgone⟩
  · rintro ⟨hu, hexists⟩
    exact ⟨fun hno => of_decide_eq_true hno.2 hexists, hu⟩

theorem prune_eq_self {users : Dict String User} (h : ∀ u ∈ P.users, u ∈ users) : P.prune users = P := by
  have hnone : P.users.keys.filter (· ∉ users) = [] := by
    rw [List.filter_eq_nil_iff]
    intro u hu hgone
    exact of_decide_eq_true hgone (h u hu)
  rw [Plan.prune, hnone]
  rfl

theorem deletePlan_ownerless (hP : s.plans.get? p = some P) (ho : P.owner ∉ s.users) :
    s.deletePlan p = (s, .error (.thrown (P.owner ++ " user doesn't exist"))) := by
  rw [deletePlan, hP]
  dsimp only
  rw [Dict.get?_eq_none.2 ho]

section Plans

/-- The loop throws at a plan without an owner. -/
theorem fixPlans_error (hp : p ∈ names) (hP : s.plans.get? p = some P) (ho : P.owner ∉ s.users)
    (hsuper : P.owner ≠ superUser) : ∃ s' f, fixPlans names s arr = (s', .error f) := by
  induction names generalizing s P arr with
  | nil => cases hp
  | cons name names ih =>
    rw [fixPlans]
    cases hname : s.plans.get? name with
    | none =>
      have hne : p ≠ name := by
        rintro rfl
        rw [hP] at hname
        cases hname
      exact ih ((List.mem_cons.1 hp).resolve_left hne) hP ho hsuper
    | some plan =>
      dsimp only
      by_cases hbad : plan.owner ∉ s.users ∧ plan.owner ≠ superUser
      · rw [if_pos hbad, deletePlan_ownerless hname hbad.1]
        exact ⟨s, _, rfl⟩
      · rw [if_neg hbad]
        have hne : p ≠ name := by
          rintro rfl
          rw [hP] at hname
          cases hname
          exact hbad ⟨ho, hsuper⟩
        have hkept : (s.modifyPlan name (Plan.prune s.users)).plans.get? p = some P := by
          rw [modifyPlan, Dict.get?_modify_ne _ _ hne, hP]
        exact ih ((List.mem_cons.1 hp).resolve_left hne) hkept ho hsuper

theorem fixPlans_ok (arr : Report) (hnodup : names.Nodup)
    (h : ∀ p P, s.plans.get? p = some P → P.owner ∈ s.users ∨ P.owner = superUser) :
    ∃ s', fixPlans names s arr = (s', .ok arr) ∧ s'.users = s.users ∧ s'.domains = s.domains ∧
      (∀ p, p ∈ s'.plans ↔ p ∈ s.plans) ∧ ∀ p, s'.plans.get? p =
        (s.plans.get? p).map (if p ∈ names then Plan.prune s.users else id) := by
  induction names generalizing s arr with
  | nil =>
    refine ⟨s, rfl, rfl, rfl, fun _ => Iff.rfl, fun p => ?_⟩
    rw [if_neg List.not_mem_nil, Option.map_id, id]
  | cons name names ih =>
    obtain ⟨hname, hnodup⟩ := List.nodup_cons.1 hnodup
    rw [fixPlans]
    cases hplan : s.plans.get? name with
    | none =>
      obtain ⟨s', hrun, hu, hd, hmem, hp⟩ := ih arr hnodup h
      refine ⟨s', hrun, hu, hd, hmem, fun p => ?_⟩
      rw [hp]
      by_cases hpn : p = name
      · rw [hpn, hplan]
        rfl
      · simp only [List.mem_cons, hpn, false_or]
    | some plan =>
      have hgood : ¬(plan.owner ∉ s.users ∧ plan.owner ≠ superUser) := by
        rintro ⟨hno, hsuper⟩
        exact (h name plan hplan).elim hno hsuper
      dsimp only
      rw [if_neg hgood]
      have hkept : ∀ p P, (s.modifyPlan name (Plan.prune s.users)).plans.get? p = some P →
          P.owner ∈ s.users ∨ P.owner = superUser := by
        intro p P hP
        rw [modifyPlan, Dict.get?_modify] at hP
        split at hP
        · obtain ⟨P₀, hP₀, rfl⟩ := Option.map_eq_some_iff.1 hP
          exact h p P₀ hP₀
        · exact h p P hP
      obtain ⟨s', hrun, hu, hd, hmem, hp⟩ := ih arr hnodup hkept
      refine ⟨s', hrun, hu, hd, fun p => (hmem p).trans Dict.mem_modify, fun p => ?_⟩
      rw [hp, modifyPlan, Dict.get?_modify]
      by_cases hpn : p = name
      · rw [if_pos hpn, if_neg (hpn ▸ hname), if_pos (hpn ▸ List.mem_cons_self), Option.map_id, id]
      · rw [if_neg hpn]
        simp only [List.mem_cons, hpn, false_or]

theorem fixPlans_idle (h : ∀ p P, s.plans.get? p = some P → P.owner ∈ s.users ∨ P.owner = superUser)
    (hu : ∀ p P, s.plans.get? p = some P → ∀ u ∈ P.users, u ∈ s.users) :
    fixPlans names s arr = (s, .ok arr) := by
  induction names with
  | nil => rfl
  | cons name names ih =>
    rw [fixPlans]
    cases hplan : s.plans.get? name with
    | none => exact ih
    | some plan =>
      have hgood : ¬(plan.owner ∉ s.users ∧ plan.owner ≠ superUser) := by
        rintro ⟨hno, hsuper⟩
        exact (h name plan hplan).elim hno hsuper
      have hsame : s.modifyPlan name (Plan.prune s.users) = s := by
        rw [modifyPlan, Dict.modify_eq_self]
        intro P hP
        exact prune_eq_self (hu name P hP)
      dsimp only
      rw [if_neg hgood, hsame]
      exact ih

end Plans

/-- What a loop over all keys of a dictionary filters. -/
theorem filter_keys {α : Type} (d : Dict String α) (k : String) (f : α → Bool) :
    ((d.get? k).filter fun v => decide (k ∉ d.keys) || f v) = (d.get? k).filter f := by
  cases hv : d.get? k with
  | none => rfl
  | some v =>
    have hk : k ∈ d.keys := Dict.mem_of_get? hv
    rw [Option.filter_some, Option.filter_some, decide_eq_false (not_not.2 hk), Bool.false_or]

section Domains
variable {d : String}

/-- The loop throws at a domain that is `null`. -/
theorem fixDomains_error (hd : d ∈ names) (h : s.domains.get? d = some none) :
    ∃ s' f, fixDomains names s arr = (s', .error f) := by
  induction names generalizing s arr with
  | nil => cases hd
  | cons name names ih =>
    rw [fixDomains]
    cases hname : s.domains.get? name with
    | none =>
      have hne : d ≠ name := by
        rintro rfl
        rw [h] at hname
        cases hname
      exact ih ((List.mem_cons.1 hd).resolve_left hne) h
    | some v =>
      cases v with
      | none => exact ⟨s, .typeError, rfl⟩
      | some D =>
        have hne : d ≠ name := by
          rintro rfl
          rw [h] at hname
          cases hname
        have hrest := (List.mem_cons.1 hd).resolve_left hne
        dsimp only
        split
        · have hkept : (s.eraseDomain name).domains.get? d = some none := by
            rw [eraseDomain, Dict.get?_erase_ne _ hne, h]
          exact ih hrest hkept
        · exact ih hrest h

theorem fixDomains_ok (names : List String) (arr : Report) (h : ∀ d, s.domains.get? d ≠ some none) :
    ∃ s' arr', fixDomains names s arr = (s', .ok arr') ∧ s'.users = s.users ∧ s'.plans = s.plans ∧
      ∀ d, s'.domains.get? d = (s.domains.get? d).filter fun v => decide (d ∉ names) || spared s.users v := by
  induction names generalizing s arr with
  | nil =>
    refine ⟨s, arr, rfl, rfl, rfl, fun d => ?_⟩
    cases s.domains.get? d with
    | none => rfl
    | some v => rfl
  | cons name names ih =>
    rw [fixDomains]
    cases hname : s.domains.get? name with
    | none =>
      obtain ⟨s', arr', hrun, hu, hp, hd⟩ := ih arr h
      refine ⟨s', arr', hrun, hu, hp, fun d => ?_⟩
      rw [hd]
      by_cases hdn : d = name
      · rw [hdn, hname]
        rfl
      · simp only [List.mem_cons, hdn, false_or]
    | some v =>
      cases v with
      | none => exact absurd hname (h name)
      | some D =>
        dsimp only
        by_cases hbad : D.owner ∉ s.users ∧ D.owner ≠ superUser
        · rw [if_pos hbad]
          have hfilled : ∀ d, (s.eraseDomain name).domains.get? d ≠ some none := by
            intro d hd
            rw [eraseDomain, Dict.get?_erase] at hd
            split at hd
            · cases hd
            · exact h d hd
          obtain ⟨s', arr', hrun, hu, hp, hd⟩ := ih { arr with domains := arr.domains ++ [name] } hfilled
          refine ⟨s', arr', hrun, hu, hp, fun d => ?_⟩
          rw [hd, eraseDomain, Dict.get?_erase]
          by_cases hdn : d = name
          · have hgone : spared s.users (some D) = false := by
              rw [spared, decide_eq_false hbad.1, decide_eq_false hbad.2]
              rfl
            rw [if_pos hdn, hdn, hname, Option.filter_some, hgone,
              decide_eq_false (not_not.2 List.mem_cons_self)]
            rfl
          · rw [if_neg hdn]
            simp only [List.mem_cons, hdn, false_or]
        · rw [if_neg hbad]
          obtain ⟨s', arr', hrun, hu, hp, hd⟩ := ih arr h
          refine ⟨s', arr', hrun, hu, hp, fun d => ?_⟩
          rw [hd]
          by_cases hdn : d = name
          · have hspared : spared s.users (some D) = true := by
              rw [spared, Bool.or_eq_true, decide_eq_true_iff, decide_eq_true_iff]
              by_contra hno
              exact hbad (not_or.1 hno)
            rw [hdn, hname, Option.filter_some, Option.filter_some, hspared, Bool.or_true, Bool.or_true]
          · simp only [List.mem_cons, hdn, false_or]

theorem fixDomains_idle (h : ∀ d v, s.domains.get? d = some v → ∃ D, v = some D ∧ D.owner ∈ s.users) :
    fixDomains names s arr = (s, .ok arr) := by
  induction names with
  | nil => rfl
  | cons name names ih =>
    rw [fixDomains]
    cases hname : s.domains.get? name with
    | none => exact ih
    | some v =>
      obtain ⟨D, rfl, hD⟩ := h name v hname
      dsimp only
      rw [if_neg fun hbad => hbad.1 hD]
      exact ih

end Domains

section Users

theorem fixUsers_ok (names : List String) (s : Store) (arr : Report) :
    (fixUsers names s arr).1.plans = s.plans ∧ (fixUsers names s arr).1.domains = s.domains ∧
      ∀ u, (fixUsers names s arr).1.users.get? u =
        (s.users.get? u).filter fun U => decide (u ∉ names) || decide (U.plan ∈ s.plans) := by
  induction names generalizing s arr with
  | nil =>
    refine ⟨rfl, rfl, fun u => ?_⟩
    rw [fixUsers]
    cases s.users.get? u with
    | none => rfl
    | some U => rfl
  | cons name names ih =>
    rw [fixUsers]
    cases hname : s.users.get? name with
    | none =>
      obtain ⟨hp, hd, hu⟩ := ih s arr
      refine ⟨hp, hd, fun u => ?_⟩
      rw [hu]
      by_cases hun : u = name
      · rw [hun, hname]
        rfl
      · simp only [List.mem_cons, hun, false_or]
    | some U =>
      dsimp only
      by_cases hbad : U.plan ∉ s.plans
      · rw [if_pos hbad]
        obtain ⟨hp, hd, hu⟩ := ih (s.eraseUser name) { arr with users := arr.users ++ [name] }
        refine ⟨hp, hd, fun u => ?_⟩
        rw [hu, eraseUser, Dict.get?_erase]
        by_cases hun : u = name
        · rw [if_pos hun, hun, hname, Option.filter_some, decide_eq_false hbad,
            decide_eq_false (not_not.2 List.mem_cons_self)]
          rfl
        · rw [if_neg hun]
          simp only [List.mem_cons, hun, false_or]
      · rw [if_neg hbad]
        obtain ⟨hp, hd, hu⟩ := ih s arr
        refine ⟨hp, hd, fun u => ?_⟩
        rw [hu]
        by_cases hun : u = name
        · rw [hun, hname, Option.filter_some, Option.filter_some, decide_eq_true (not_not.1 hbad),
            Bool.or_true, Bool.or_true]
        · simp only [List.mem_cons, hun, false_or]

theorem fixUsers_idle (h : ∀ u U, s.users.get? u = some U → U.plan ∈ s.plans) :
    fixUsers names s arr = (s, arr) := by
  induction names with
  | nil => rfl
  | cons name names ih =>
    rw [fixUsers]
    cases hname : s.users.get? name with
    | none => exact ih
    | some U =>
      dsimp only
      rw [if_neg (not_not.2 (h name U hname))]
      exact ih

end Users

/-- A repaired store is left as it is. -/
theorem fixDatabase_idle (h : Repaired s) : s.fixDatabase = (s, .ok ⟨[], [], []⟩) := by
  have howners : ∀ p P, s.plans.get? p = some P → P.owner ∈ s.users ∨ P.owner = superUser := by
    intro p P hP
    by_cases hsuper : P.owner = superUser
    · exact .inr hsuper
    · exact .inl (h.planOwner p P hP hsuper)
  rw [fixDatabase, fixPlans_idle howners h.users]
  dsimp only
  rw [fixDomains_idle h.domainOwner]
  dsimp only
  rw [fixUsers_idle h.userPlan]

theorem fixDatabase_ok (h : Endable s) : ∃ s' arr, s.fixDatabase = (s', .ok arr) ∧ Fixed s s' := by
  obtain ⟨s₁, hrun₁, hu₁, hd₁, hmem₁, hp₁⟩ := fixPlans_ok ⟨[], [], []⟩ s.plans.keys_nodup h.plans
  have hfilled : ∀ d, s₁.domains.get? d ≠ some none := by
    rw [hd₁]
    exact h.domains
  obtain ⟨s₂, arr, hrun₂, hu₂, hp₂, hd₂⟩ := fixDomains_ok s₁.domains.keys ⟨[], [], []⟩ hfilled
  obtain ⟨hp₃, hd₃, hu₃⟩ := fixUsers_ok s₂.users.keys s₂ arr
  refine ⟨(fixUsers s₂.users.keys s₂ arr).1, (fixUsers s₂.users.keys s₂ arr).2, ?_, ?_, ?_, ?_⟩
  · rw [fixDatabase, hrun₁]
    dsimp only
    rw [hrun₂]
  · intro p
    rw [hp₃, hp₂, hp₁]
    cases hP : s.plans.get? p with
    | none => rfl
    | some P =>
      have hp : p ∈ s.plans.keys := Dict.mem_of_get? hP
      rw [if_pos hp]
  · intro u
    have hplans : ∀ q, q ∈ s₂.plans ↔ q ∈ s.plans := by
      rw [hp₂]
      exact hmem₁
    rw [hu₃, filter_keys, hu₂, hu₁]
    simp only [hplans]
  · intro d
    rw [hd₃, hd₂, filter_keys, hd₁, hu₁]

theorem endable_of_ok (h : s.fixDatabase.2 = .ok arr) : Endable s := by
  rw [fixDatabase] at h
  have howners : ∀ p P, s.plans.get? p = some P → P.owner ∈ s.users ∨ P.owner = superUser := by
    intro p P hP
    by_contra hno
    obtain ⟨ho, hsuper⟩ := not_or.1 hno
    obtain ⟨s', f, hrun⟩ := fixPlans_error (Dict.mem_of_get? hP) hP ho hsuper
    rw [hrun] at h
    cases h
  refine ⟨howners, fun d hd => ?_⟩
  obtain ⟨s₁, hrun₁, -, hd₁, -, -⟩ := fixPlans_ok ⟨[], [], []⟩ s.plans.keys_nodup howners
  rw [hrun₁] at h
  dsimp only at h
  rw [← hd₁] at hd
  obtain ⟨s₂, f, hrun₂⟩ := fixDomains_error (Dict.mem_of_get? hd) hd
  rw [hrun₂] at h
  cases h

section Fixed

theorem Fixed.mem_users (hf : Fixed s s') {u : String} : u ∈ s'.users ↔ s.Seated u := by
  rw [Dict.mem_iff, hf.users]
  constructor
  · rintro ⟨U, hU⟩
    obtain ⟨hU, hplan⟩ := Option.filter_eq_some_iff.1 hU
    exact ⟨U, hU, of_decide_eq_true hplan⟩
  · rintro ⟨U, hU, hplan⟩
    exact ⟨U, Option.filter_eq_some_iff.2 ⟨hU, decide_eq_true hplan⟩⟩

theorem Fixed.mem_plans (hf : Fixed s s') {q : String} : q ∈ s'.plans ↔ q ∈ s.plans := by
  rw [Dict.mem_iff, hf.plans, Dict.mem_iff]
  constructor
  · rintro ⟨P, hP⟩
    obtain ⟨P₀, hP₀, -⟩ := Option.map_eq_some_iff.1 hP
    exact ⟨P₀, hP₀⟩
  · rintro ⟨P, hP⟩
    exact ⟨P.prune s.users, by rw [hP, Option.map_some]⟩

theorem Fixed.get?_users (hf : Fixed s s') {u : String} {U : User} :
    s'.users.get? u = some U ↔ s.users.get? u = some U ∧ U.plan ∈ s.plans := by
  rw [hf.users, Option.filter_eq_some_iff, decide_eq_true_iff]

theorem spared_iff {users : Dict String User} {D : Domain} :
    spared users (some D) = true ↔ D.owner ∈ users ∨ D.owner = superUser := by
  rw [spared, Bool.or_eq_true, decide_eq_true_iff, decide_eq_true_iff]

theorem Fixed.get?_domains (hf : Fixed s s') {d : String} {D : Domain} :
    s'.domains.get? d = some (some D) ↔
      s.domains.get? d = some (some D) ∧ (D.owner ∈ s.users ∨ D.owner = superUser) := by
  rw [hf.domains, Option.filter_eq_some_iff, spared_iff]

end Fixed

theorem keepsSound (hf : Fixed s s') : KeepsSound s s' where
  plan p hp := by
    have hsame : ∀ P, s.plans.get? p = some P → (∀ u ∈ P.users, u ∈ s.users) →
        s'.plans.get? p = s.plans.get? p := by
      intro P hP hu
      rw [hf.plans, hP, Option.map_some, prune_eq_self hu]
    cases hp with
    | root hP ho hu => exact hsame _ hP hu
    | owned hP ho hu => exact hsame _ hP hu
  user u hu := by
    cases hu with
    | mk hU hp hq hd =>
      have hplan : ∀ {q}, SoundPlan s q → q ∈ s.plans := by
        intro q hq
        cases hq with
        | root hP => exact Dict.mem_of_get? hP
        | owned hP => exact Dict.mem_of_get? hP
      rw [hU]
      exact hf.get?_users.2 ⟨hU, hplan hp⟩
  domain d D hD hu := by
    have howner : D.owner ∈ s.users := by
      cases hu with
      | mk hU => exact Dict.mem_of_get? hU
    have hd : s.domains.get? d = some (some D) := Option.join_eq_some_iff.1 hD
    rw [hd]
    exact hf.get?_domains.2 ⟨hd, .inl howner⟩

theorem repairable_of_repaired (he : Endable s) (hf : Fixed s s') (h : Repaired s') : Repairable s := by
  have hpruned : ∀ p P, s.plans.get? p = some P → s'.plans.get? p = some (P.prune s.users) := by
    intro p P hP
    rw [hf.plans, hP, Option.map_some]
  have hseated : ∀ d D, s'.domains.get? d = some (some D) → s.Seated D.owner := by
    intro d D hd
    obtain ⟨D', hsome, howner⟩ := h.domainOwner d _ hd
    rw [Option.some.inj hsome]
    exact hf.mem_users.1 howner
  refine ⟨?_, ?_, ?_, ?_, ?_⟩
  · intro p P hP
    by_cases hsuper : P.owner = superUser
    · exact .inl hsuper
    · have howner : P.owner ∈ s'.users := h.planOwner p (P.prune s.users) (hpruned p P hP) hsuper
      exact .inr (hf.mem_users.1 howner)
  · intro p P hP u hu hexists
    exact hf.mem_users.1 (h.users p _ (hpruned p P hP) u (mem_prune.2 ⟨hu, hexists⟩))
  · intro d v hv
    cases v with
    | none => exact absurd hv (he.domains d)
    | some D => exact ⟨D, rfl, fun howner => hseated d D (hf.get?_domains.2 ⟨hv, howner⟩)⟩
  · intro u U hU hplan q hq
    exact hf.mem_plans.1 (h.subPlans u U (hf.get?_users.2 ⟨hU, hplan⟩) q hq)
  · intro u U hU hplan d hd
    obtain ⟨v, hv⟩ := Dict.mem_iff.1 (h.domains u U (hf.get?_users.2 ⟨hU, hplan⟩) d hd)
    obtain ⟨D, rfl, -⟩ := h.domainOwner d v hv
    exact ⟨D, Option.join_eq_some_iff.2 (hf.get?_domains.1 hv).1, hseated d D hv⟩

theorem Repairable.endable (h : Repairable s) : Endable s where
  plans p P hP := by
    rcases h.plans p P hP with hsuper | ⟨U, hU, -⟩
    · exact .inr hsuper
    · exact .inl (Dict.mem_of_get? hU)
  domains d hd := by
    obtain ⟨D, hnone, -⟩ := h.domains d none hd
    cases hnone

theorem repaired_of_repairable (h : Repairable s) (hf : Fixed s s') : Repaired s' where
  planOwner p P hP hsuper := by
    rw [hf.plans] at hP
    obtain ⟨P₀, hP₀, rfl⟩ := Option.map_eq_some_iff.1 hP
    exact hf.mem_users.2 ((h.plans p P₀ hP₀).resolve_left hsuper)
  userPlan u U hU := hf.mem_plans.2 (hf.get?_users.1 hU).2
  domainOwner d v hv := by
    have hkept := hv
    rw [hf.domains] at hv
    obtain ⟨D, rfl, howner⟩ := h.domains d v (Option.filter_eq_some_iff.1 hv).1
    exact ⟨D, rfl, hf.mem_users.2 (howner (hf.get?_domains.1 hkept).2)⟩
  users p P hP u hu := by
    rw [hf.plans] at hP
    obtain ⟨P₀, hP₀, rfl⟩ := Option.map_eq_some_iff.1 hP
    obtain ⟨hlisted, hexists⟩ := mem_prune.1 hu
    exact hf.mem_users.2 (h.users p P₀ hP₀ u hlisted hexists)
  subPlans u U hU q hq := by
    obtain ⟨hU, hplan⟩ := hf.get?_users.1 hU
    exact hf.mem_plans.2 (h.subPlans u U hU hplan q hq)
  domains u U hU d hd := by
    obtain ⟨hU, hplan⟩ := hf.get?_users.1 hU
    obtain ⟨D, hD, V, hV, -⟩ := h.owned u U hU hplan d hd
    exact Dict.mem_of_get? (hf.get?_domains.2 ⟨Option.join_eq_some_iff.1 hD, .inl (Dict.mem_of_get? hV)⟩)

/-- `fixDatabase` repairs just the stores that are damaged no further than it looks. -/
theorem repairs_iff (s : Store) : Repairs s ↔ Repairable s := by
  constructor
  · rintro ⟨⟨arr, hok⟩, hrepaired, -, -⟩
    have he := endable_of_ok hok
    obtain ⟨s', arr', hrun, hf⟩ := fixDatabase_ok he
    rw [hrun] at hrepaired
    exact repairable_of_repaired he hf hrepaired
  · intro h
    obtain ⟨s', arr, hrun, hf⟩ := fixDatabase_ok h.endable
    have hrepaired := repaired_of_repairable h hf
    rw [Repairs, hrun]
    exact ⟨⟨arr, rfl⟩, hrepaired, keepsSound hf, fixDatabase_idle hrepaired⟩

/-- A store with a plan that has lost its owner. -/
def ownerless : Store := (installed.run sampleCalls).eraseUser "ann"

/-- `deletePlan` demands the owner that is missing. -/
theorem not_repaired : ¬∀ s : Store, Repairs s := by
  intro h
  obtain ⟨⟨arr, hok⟩, -⟩ := h ownerless
  have hthrows : ownerless.fixDatabase.2 = .error (.thrown "ann user doesn't exist") := rfl
  rw [hthrows] at hok
  cases hok

end Store
end JXPanel

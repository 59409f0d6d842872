import JXPanel.QuotaPass

namespace JXPanel
set_option autoImplicit true

open Hierarchy Precedence

/-- `deep--`. A depth that is omitted is no number, and stays none. -/
def JsNum.pred (deep : JsNum) : JsNum := deep.plus (.int (-1))

/-- `deep > 0` -/
def JsNum.goesOn (deep : JsNum) : Bool := (JsNum.int 0).lt deep

namespace Store
variable (s : Store)

/-- `getUsersByPlanName` with the depth that the source counts down. -/
def usersByPlanName : Nat → JsNum → String → Js (List String)
  | 0, _, _ => .error .stackOverflow
  | n + 1, deep, plan_name =>
    match s.plans.get? plan_name with
    | none => .error (.thrown (plan_name ++ " plan doesn't exist"))
    | some plan => Collect.concatM (fun o =>
        if deep.pred.goesOn then
          match s.users.get? o with
          | none => .ok [o]
          | some user => do
            let below ← Collect.concatM (fun i => usersByPlanName n deep.pred i) user.subPlans.keys
            return o :: below
        else .ok [o]) plan.users.keys

def usersByUserName (n : Nat) (deep : JsNum) (user_name : String) : Js (List String) :=
  match s.users.get? user_name with
  | none => .error (.thrown (user_name ++ " user doesn't exist"))
  | some user => Collect.concatM (fun o => s.usersByPlanName n deep o) user.subPlans.keys

def plansByUserName : Nat → JsNum → String → Js (List String)
  | 0, _, _ => .error .stackOverflow
  | n + 1, deep, user_name =>
    match s.users.get? user_name with
    | none => .error (.thrown (user_name ++ " user doesn't exist"))
    | some user => Collect.concatM (fun o =>
        if deep.pred.goesOn then
          match s.plans.get? o with
          | none => .error .typeError
          | some plan => do
            let below ← Collect.concatM (fun i => plansByUserName n deep.pred i) plan.users.keys
            return o :: below
        else .ok [o]) user.subPlans.keys

def domainsByUserName (n : Nat) (deep : JsNum) (user_name : String) : Js (List String) :=
  match s.users.get? user_name with
  | none => .error (.thrown (user_name ++ " user doesn't exist"))
  | some user =>
    if deep.pred.goesOn then do
      let users ← s.usersByUserName n deep.pred user_name
      let below ← Collect.concatM (fun o =>
        match s.users.get? o with
        | none => .error .typeError
        | some sub_user => .ok sub_user.domains.keys) users
      return user.domains.keys ++ below
    else .ok user.domains.keys

/-- The users that are reached from a plan through so many levels of plans, of which it is the first. -/
inductive UserWithin : Nat → String → String → Prop
  | seat (k : Nat) (hu : u ∈ s.seats p) : UserWithin (k + 1) p u
  | under (k : Nat) (hv : v ∈ s.seats p) (hq : q ∈ s.ownPlans v) (hu : UserWithin k q u) : UserWithin (k + 1) p u

/-- The plans that are reached from a user through so many levels. -/
inductive PlanWithin : Nat → String → String → Prop
  | own (k : Nat) (hq : q ∈ s.ownPlans u) : PlanWithin (k + 1) u q
  | under (k : Nat) (ho : o ∈ s.ownPlans u) (hv : v ∈ s.seats o) (hq : PlanWithin k v q) : PlanWithin (k + 1) u q

/-- The users that are reached from a user through so many levels of plans. -/
def UserBelow (k : Nat) (u v : String) : Prop := ∃ q ∈ s.ownPlans u, s.UserWithin k q v

end Store

/-- A call returns a list that holds each item of a set exactly once, and nothing else. -/
def Lists (r : Js (List String)) (S : String → Prop) : Prop := ∃ l, r = .ok l ∧ l.Nodup ∧ ∀ x, x ∈ l ↔ S x

section Depth
variable {s : Store} {n k : Nat}

theorem goesOn_pred_int (k : Nat) : (JsNum.int k).pred.goesOn = decide (1 < k) := by
  have hpred : (JsNum.int k).pred = .int (k + -1) := rfl
  have hlt : (JsNum.int (k + -1)).goesOn = decide ((0 : Int) < k + -1) := rfl
  rw [hpred, hlt, decide_eq_decide]
  omega

theorem pred_int (k : Nat) : (JsNum.int ((k + 1 : Nat) : Int)).pred = .int k := by
  have hpred : (JsNum.int ((k + 1 : Nat) : Int)).pred = .int (((k + 1 : Nat) : Int) + -1) := rfl
  rw [hpred]
  congr 1
  omega

namespace Store

/-- A number of levels is counted down as the source does it. -/
theorem usersByPlanName_int (hk : k ≤ n) (p : String) :
    s.usersByPlanName (n + 1) (.int k) p = s.getUsersByPlanName k p := by
  induction n generalizing k p with
  | zero =>
    obtain rfl : k = 0 := by omega
    rw [usersByPlanName, getUsersByPlanName, goesOn_pred_int]
    cases s.plans.get? p with
    | none => rfl
    | some P => exact Collect.concatM_single _
  | succ n ih =>
    cases k with
    | zero =>
      rw [usersByPlanName, getUsersByPlanName, goesOn_pred_int]
      cases s.plans.get? p with
      | none => rfl
      | some P => exact Collect.concatM_single _
    | succ k =>
      rw [usersByPlanName, getUsersByPlanName, goesOn_pred_int, pred_int]
      cases s.plans.get? p with
      | none => rfl
      | some P =>
        apply Collect.concatM_congr
        intro o _
        by_cases hlast : k = 0
        · rw [if_pos hlast, hlast]
          rfl
        · rw [if_neg hlast, if_pos (decide_eq_true (by omega))]
          cases s.users.get? o with
          | none => rfl
          | some U =>
            have hlevel : Collect.concatM (fun i => s.usersByPlanName (n + 1) (.int k) i) U.subPlans.keys =
                Collect.concatM (fun i => s.getUsersByPlanName k i) U.subPlans.keys :=
              Collect.concatM_congr fun i _ => ih (by omega) i
            dsimp only
            rw [hlevel]

theorem usersByPlanName_omitted (n : Nat) (p : String) :
    s.usersByPlanName (n + 1) .nan p = s.getUsersByPlanName 1 p := by
  rw [usersByPlanName, getUsersByPlanName]
  rfl

theorem plansByUserName_int (hk : k ≤ n) (u : String) :
    s.plansByUserName (n + 1) (.int k) u = s.getPlansByUserName k u := by
  induction n generalizing k u with
  | zero =>
    obtain rfl : k = 0 := by omega
    rw [plansByUserName, getPlansByUserName, goesOn_pred_int]
    cases s.users.get? u with
    | none => rfl
    | some U => exact Collect.concatM_single _
  | succ n ih =>
    cases k with
    | zero =>
      rw [plansByUserName, getPlansByUserName, goesOn_pred_int]
      cases s.users.get? u with
      | none => rfl
      | some U => exact Collect.concatM_single _
    | succ k =>
      rw [plansByUserName, getPlansByUserName, goesOn_pred_int, pred_int]
      cases s.users.get? u with
      | none => rfl
      | some U =>
        apply Collect.concatM_congr
        intro o _
        by_cases hlast : k = 0
        · rw [if_pos hlast, hlast]
          rfl
        · rw [if_neg hlast, if_pos (decide_eq_true (by omega))]
          cases s.plans.get? o with
          | none => rfl
          | some P =>
            have hlevel : Collect.concatM (fun i => s.plansByUserName (n + 1) (.int k) i) P.users.keys =
                Collect.concatM (fun i => s.getPlansByUserName k i) P.users.keys :=
              Collect.concatM_congr fun i _ => ih (by omega) i
            dsimp only
            rw [hlevel]

theorem plansByUserName_omitted (n : Nat) (u : String) :
    s.plansByUserName (n + 1) .nan u = s.getPlansByUserName 1 u := by
  rw [plansByUserName, getPlansByUserName]
  rfl

theorem domainsByUserName_int (hk : k ≤ n) (u : String) :
    s.domainsByUserName (n + 1) (.int k) u = s.getDomainsByUserName u k := by
  rw [domainsByUserName, getDomainsByUserName, goesOn_pred_int]
  cases hU : s.users.get? u with
  | none => rfl
  | some U =>
    by_cases hlast : k ≤ 1
    · dsimp only
      rw [if_pos hlast, if_neg (by simp [hlast])]
    · obtain ⟨j, rfl⟩ := Nat.exists_eq_add_of_le' (Nat.one_le_iff_ne_zero.2 (by omega : k ≠ 0))
      have husers : s.usersByUserName (n + 1) (.int j) u = s.getUsersByUserName u (j + 1 - 1) := by
        rw [usersByUserName, getUsersByUserName, Nat.add_sub_cancel]
        cases s.users.get? u with
        | none => rfl
        | some U => exact Collect.concatM_congr fun i _ => usersByPlanName_int (by omega) i
      dsimp only
      rw [if_neg hlast, if_pos (decide_eq_true (by omega)), pred_int]
      exact congrArg (fun users => users >>= _) husers

theorem domainsByUserName_omitted (n : Nat) (u : String) :
    s.domainsByUserName (n + 1) .nan u = s.getDomainsByUserName u 1 := by
  rw [domainsByUserName, getDomainsByUserName]
  rfl

/-- Levels of plans are steps down to the plans of users. -/
theorem userWithin_iff : s.UserWithin k p u ↔ ∃ q ∈ descend s.subs k p, u ∈ s.seats q := by
  constructor
  · intro hu
    induction hu with
    | seat k hu => exact ⟨_, mem_descend_succ.2 (.inl rfl), hu⟩
    | under k hv hq _ ih =>
      obtain ⟨r, hr, hur⟩ := ih
      exact ⟨r, mem_descend_succ.2 (.inr ⟨_, mem_subs.2 ⟨_, hv, hq⟩, hr⟩), hur⟩
  · rintro ⟨q, hq, hu⟩
    induction k generalizing p with
    | zero => exact absurd hq List.not_mem_nil
    | succ k ih =>
      rcases mem_descend_succ.1 hq with rfl | ⟨r, hr, hqr⟩
      · exact .seat k hu
      · obtain ⟨v, hv, hrv⟩ := mem_subs.1 hr
        exact .under k hv hrv (ih hqr)

theorem planWithin_iff : s.PlanWithin k u q ↔ ∃ o ∈ s.ownPlans u, q ∈ descend s.subs k o := by
  constructor
  · intro hq
    induction hq with
    | own k hq => exact ⟨_, hq, mem_descend_succ.2 (.inl rfl)⟩
    | under k ho hv _ ih =>
      obtain ⟨r, hr, hqr⟩ := ih
      exact ⟨_, ho, mem_descend_succ.2 (.inr ⟨r, mem_subs.2 ⟨_, hv, hr⟩, hqr⟩)⟩
  · rintro ⟨o, ho, hq⟩
    induction k generalizing u o with
    | zero => exact absurd hq List.not_mem_nil
    | succ k ih =>
      rcases mem_descend_succ.1 hq with rfl | ⟨r, hr, hqr⟩
      · exact .own k ho
      · obtain ⟨v, hv, hrv⟩ := mem_subs.1 hr
        exact .under k ho hv (ih r hrv hqr)

/-- Each plan of a user is followed by what is below it. -/
theorem getPlansByUserName_eq {l : List String} (h : s.getPlansByUserName (n + 1) u = .ok l) :
    l = (s.ownPlans u).flatMap (descend s.subs (n + 1)) := by
  induction n generalizing u l with
  | zero =>
    rw [getPlansByUserName] at h
    split at h
    · cases h
    · rename_i U hU
      rw [Collect.concatM_eq (g := fun o => [o]) fun o _ => if_pos rfl] at h
      rw [← Except.ok.inj h, ownPlans_of_get? hU]
      apply List.flatMap_congr
      intro o _
      have hnone : (s.subs o).flatMap (descend s.subs 0) = [] := List.flatMap_eq_nil_iff.2 fun _ _ => rfl
      rw [descend, hnone]
  | succ n ih =>
    rw [getPlansByUserName] at h
    split at h
    · cases h
    · rename_i U hU
      obtain ⟨g, hg, rfl⟩ := Collect.concatM_inv h
      rw [ownPlans_of_get? hU]
      apply List.flatMap_congr
      intro o ho
      have hpart := hg o ho
      rw [if_neg (Nat.succ_ne_zero n)] at hpart
      split at hpart
      · cases hpart
      · rename_i P hP
        obtain ⟨below, hbelow, hpart⟩ := Collect.bind_ok.1 hpart
        obtain ⟨f, hf, rfl⟩ := Collect.concatM_inv hbelow
        rw [← Except.ok.inj hpart, descend, subs, seats_of_get? hP, List.flatMap_assoc]
        congr 1
        apply List.flatMap_congr
        intro i hi
        exact ih (hf i hi)

/-- What is found with the domains of a user are his own and those of the users found. -/
theorem getDomainsByUserName_eq {l : List String} (h : s.getDomainsByUserName u (n + 2) = .ok l) :
    ∃ users, s.getUsersByUserName u (n + 1) = .ok users ∧ l = (u :: users).flatMap s.ownDomains := by
  rw [getDomainsByUserName] at h
  split at h
  · cases h
  · rename_i U hU
    rw [if_neg (by omega)] at h
    obtain ⟨users, husers, h⟩ := Collect.bind_ok.1 h
    obtain ⟨below, hbelow, h⟩ := Collect.bind_ok.1 h
    obtain ⟨g, hg, rfl⟩ := Collect.concatM_inv hbelow
    refine ⟨users, husers, ?_⟩
    rw [← Except.ok.inj h, List.flatMap_cons, ownDomains_of_get? hU]
    congr 1
    apply List.flatMap_congr
    intro v hv
    have hpart := hg v hv
    split at hpart
    · cases hpart
    · rename_i V hV
      rw [← Except.ok.inj hpart, ownDomains_of_get? hV]

end Store
end Depth

namespace Store
variable {s : Store} {k n : Nat}

section Forest
variable (h : Integrity s) (hf : Forest s)
include h hf

theorem Integrity.descend_nodup (n : Nat) (p : String) : (descend s.subs n p).Nodup := by
  obtain ⟨rank, hrank⟩ := hf.ranked
  have hparent : ∀ x y q, q ∈ s.subs x → q ∈ s.subs y → x = y := fun x y q hx hy =>
    Option.some.inj ((h.linked.parentUp_of_sub hx).symm.trans (h.linked.parentUp_of_sub hy))
  exact List.nodup_iff_count_le_one.2 fun x => count_descend_le_one hrank h.linked.subs_nodup hparent n p x

theorem Integrity.getUsersByPlanName_lists (hp : p ∈ s.plans) (k : Nat) :
    Lists (s.getUsersByPlanName (k + 1) p) (s.UserWithin (k + 1) p) := by
  obtain ⟨l, hl⟩ := h.linked.getUsersByPlanName_total (k + 1) hp
  refine ⟨l, hl, h.linked.getUsersByPlanName_nodup hf.ranked hl, ?_⟩
  intro u
  rw [userWithin_iff, getUsersByPlanName_mem hl]

/-- The plans below a user are a part of those below his plan. -/
theorem Integrity.getPlansByUserName_nodup (hu : u ∈ s.seats p) {l : List String}
    (hl : s.getPlansByUserName (k + 1) u = .ok l) : l.Nodup := by
  rw [getPlansByUserName_eq hl]
  have hwhole := h.descend_nodup hf (k + 2) p
  rw [descend, subs, List.flatMap_assoc] at hwhole
  exact (List.nodup_flatMap.1 (List.nodup_cons.1 hwhole).2).1 u hu

/-- The plans of a user are not below one another. -/
theorem Integrity.own_not_below (hu : u ∈ s.seats p) (ho : o ∈ s.ownPlans u) (hq : q ∈ s.ownPlans u) :
    ¬Relation.TransGen s.PlanUnder o q := by
  intro hbelow
  have hsub : ∀ r ∈ s.ownPlans u, r ∈ s.subs p := fun r hr => mem_subs.2 ⟨u, hu, hr⟩
  obtain ⟨r, hor, hrq⟩ := Relation.TransGen.tail'_iff.1 hbelow
  have hparent : r = p :=
    Option.some.inj ((h.linked.parentUp_of_sub hrq).symm.trans (h.linked.parentUp_of_sub (hsub q hq)))
  rw [hparent] at hor
  exact hf.climbs.not_below_self h.linked (Relation.TransGen.head' (hsub o ho) hor)

/-- The plans below a user, none of them in front of the plan of its owner. -/
theorem Integrity.getPlansByUserName_ordered (hu : u ∈ s.seats p) {l : List String}
    (hl : s.getPlansByUserName (k + 1) u = .ok l) : l.Pairwise fun q r => q ∉ s.subs r := by
  have hsingle : ∀ x y y' : String, x ∈ s.subs y → x ∈ s.subs y' → y = y' := fun x y y' hy hy' =>
    Option.some.inj ((h.linked.parentUp_of_sub hy).symm.trans (h.linked.parentUp_of_sub hy'))
  apply (getPlansByUserName_led hl).pairwise (h.getPlansByUserName_nodup hf hu hl) _ hsingle
  intro q hq hown r hr hsub
  obtain ⟨o, ho, hro⟩ := (getPlansByUserName_mem hl).1 hr
  have hdown : Relation.ReflTransGen s.PlanUnder o r := below_of_mem_descend hro
  exact h.own_not_below hf hu ho hown (Relation.TransGen.tail' hdown hsub)

omit hf in
/-- Different users have no domain in common. -/
theorem Integrity.ownDomains_nodup {users : List String} (hn : users.Nodup) : (users.flatMap s.ownDomains).Nodup := by
  apply List.nodup_flatMap.2
  constructor
  · intro u _
    unfold ownDomains
    cases s.users.get? u with
    | none => exact List.nodup_nil
    | some U => exact U.domains.keys_nodup
  · apply hn.pairwise_of_forall_ne
    intro u _ v _ hne d hdu hdv
    exact hne (Option.some.inj (((h.domain d u).2 hdu).symm.trans ((h.domain d v).2 hdv)))

theorem Integrity.getDomainsByUserName_lists (hu : u ∈ s.seats p) (k : Nat) :
    Lists (s.getDomainsByUserName u (k + 1)) fun d =>
      d ∈ s.ownDomains u ∨ ∃ v, s.UserBelow k u v ∧ d ∈ s.ownDomains v := by
  obtain ⟨U, hU⟩ := Dict.mem_iff.1 (h.linked.user_mem hu)
  cases k with
  | zero =>
    refine ⟨U.domains.keys, ?_, U.domains.keys_nodup, ?_⟩
    · rw [getDomainsByUserName, hU]
      rfl
    · intro d
      rw [ownDomains_of_get? hU]
      constructor
      · exact .inl
      · rintro (hd | ⟨v, ⟨q, -, hv⟩, -⟩)
        · exact hd
        · cases hv
  | succ k =>
    obtain ⟨l, hl⟩ := h.linked.getDomainsByUserName_total k hu
    obtain ⟨users, husers, rfl⟩ := getDomainsByUserName_eq hl
    refine ⟨_, hl, h.ownDomains_nodup ?_, ?_⟩
    · exact h.linked.getUsersByUserName_nodup hf.ranked hu (Nat.succ_ne_zero k) husers
    · intro d
      have hfound : ∀ v, v ∈ users ↔ s.UserBelow (k + 1) u v := by
        intro v
        rw [getUsersByUserName_mem husers, UserBelow]
        exact exists_congr fun o => and_congr_right fun _ => userWithin_iff.symm
      rw [List.flatMap_cons, List.mem_append, List.mem_flatMap]
      exact or_congr_right (exists_congr fun v => and_congr_left fun _ => hfound v)

/-- Each depth is exact, and an omitted depth is one level. -/
theorem traversals_exact (hp : p ∈ s.plans) (hu : u ∈ s.users) (hk : 1 ≤ k) (hn : k ≤ n) :
    Lists (s.usersByPlanName (n + 1) (.int k) p) (s.UserWithin k p) ∧
      (∃ l, s.plansByUserName (n + 1) (.int k) u = .ok l ∧ l.Nodup ∧ (∀ q, q ∈ l ↔ s.PlanWithin k u q) ∧
        ∀ q r, q ∈ l → r ∈ l → r ∈ s.subs q → l.idxOf q < l.idxOf r) ∧
      (Lists (s.domainsByUserName (n + 1) (.int k) u) fun d =>
        d ∈ s.ownDomains u ∨ ∃ v, s.UserBelow (k - 1) u v ∧ d ∈ s.ownDomains v) ∧
      s.usersByPlanName (n + 1) .nan p = s.usersByPlanName (n + 1) (.int 1) p ∧
      s.plansByUserName (n + 1) .nan u = s.plansByUserName (n + 1) (.int 1) u ∧
      s.domainsByUserName (n + 1) .nan u = s.domainsByUserName (n + 1) (.int 1) u := by
  obtain ⟨U, hU⟩ := Dict.mem_iff.1 hu
  have hseat : u ∈ s.seats U.plan := (h.seat u U.plan).1 (planOf_of_get? hU)
  have hone : 1 ≤ n := hk.trans hn
  obtain ⟨k, rfl⟩ := Nat.exists_eq_add_of_le' hk
  rw [usersByPlanName_int hn, plansByUserName_int hn, domainsByUserName_int hn]
  refine ⟨h.getUsersByPlanName_lists hf hp k, ?_, h.getDomainsByUserName_lists hf hseat k, ?_, ?_, ?_⟩
  · obtain ⟨l, hl⟩ := h.linked.getPlansByUserName_total (k + 1) hseat
    have hnodup := h.getPlansByUserName_nodup hf hseat hl
    refine ⟨l, hl, hnodup, fun q => ?_, fun q r hq hr hsub => ?_⟩
    · rw [planWithin_iff, getPlansByUserName_mem hl]
    · apply idxOf_lt_of_pairwise (h.getPlansByUserName_ordered hf hseat hl) hq hr _ hsub
      rintro rfl
      exact hf.climbs.not_below_self h.linked (.single hsub)
  · rw [usersByPlanName_omitted]
    exact (usersByPlanName_int hone p).symm
  · rw [plansByUserName_omitted]
    exact (plansByUserName_int hone u).symm
  · rw [domainsByUserName_omitted]
    exact (domainsByUserName_int hone u).symm

end Forest

/-- Gold has a user with domains and a plan of his own. -/
def hosted : Store :=
  installed.run (sampleCalls ++ [.addDomain "bob" "bob.net" .empty, .addPlan (some "bob") "silver" (planOpts 2 2),
    .addUser "silver" "carl" .empty, .addDomain "carl" "carl.org" .empty])

theorem consistent_hosted : Consistent hosted := by
  apply consistent_of_adds
  apply Runs.Reached.start.run
  exact ⟨⟨by decide, by decide, plainOpts_empty⟩,
    ⟨by decide, by decide, plainOpts_planOpts 5 5, wholeLimits_planOpts 5 5⟩,
    ⟨by decide, by decide, plainOpts_empty⟩, plainOpts_empty, plainOpts_empty,
    ⟨by decide, by decide, plainOpts_planOpts 2 2, wholeLimits_planOpts 2 2⟩,
    ⟨by decide, by decide, plainOpts_empty⟩, plainOpts_empty, trivial⟩

/-- Two levels below gold and ann, and the one level that is meant where none is given. -/
theorem traversals_exact_sample :
    (hosted.usersByPlanName 4 (.int 2) "gold" = .ok ["bob", "carl"] ∧ hosted.UserWithin 2 "gold" "carl") ∧
      (∃ l, hosted.plansByUserName 4 (.int 2) "ann" = .ok l ∧ l.idxOf "gold" < l.idxOf "silver") ∧
      (hosted.domainsByUserName 4 (.int 2) "ann" = .ok ["bob.org", "bob.net"] ∧
        ¬∃ v, hosted.UserBelow 1 "ann" v ∧ "carl.org" ∈ hosted.ownDomains v) ∧
      hosted.usersByPlanName 4 .nan "gold" = .ok ["bob"] ∧ hosted.plansByUserName 4 .nan "ann" = .ok ["gold"] ∧
      hosted.domainsByUserName 4 .nan "ann" = .ok [] := by
  obtain ⟨⟨users, husers, -, hmem⟩, ⟨plans, hplans, -, hwithin, hordered⟩, ⟨domains, hdomains, -, hown⟩, hp, hu, hd⟩ :=
    traversals_exact consistent_hosted.integrity consistent_hosted.forest (p := "gold") (by decide) (u := "ann")
      (by decide) (by decide : 1 ≤ 2) (by decide : 2 ≤ 3)
  have hlisted : hosted.usersByPlanName 4 (.int 2) "gold" = .ok ["bob", "carl"] := by decide +kernel
  have hfound : hosted.domainsByUserName 4 (.int 2) "ann" = .ok ["bob.org", "bob.net"] := by decide +kernel
  refine ⟨⟨hlisted, (hmem "carl").1 ?_⟩, ⟨plans, hplans, hordered "gold" "silver" ?_ ?_ ?_⟩, ⟨hfound, fun hbelow => ?_⟩,
    hp.trans ?_, hu.trans ?_, hd.trans ?_⟩
  · cases hlisted.symm.trans husers
    decide
  · exact (hwithin "gold").2 (.own 1 (by decide))
  · have hbob : "bob" ∈ hosted.seats "gold" := by decide
    exact (hwithin "silver").2 (.under 1 (by decide) hbob (.own 0 (by decide)))
  · decide
  · have hin := (hown "carl.org").2 (.inr hbelow)
    cases hfound.symm.trans hdomains
    exact absurd hin (by decide)
  all_goals decide +kernel

/-- Where nothing below is suspended and the users are listed to the end, a total counts those listed. -/
theorem Integrity.total_listed (h : Integrity s) (hf : Forest s) (m : Measure) (hP : s.plans.get? p = some P)
    (hd : ¬Deep s.subs (n + 1) p)
    (hact : ∀ q Q, Relation.TransGen s.PlanUnder p q → s.plans.get? q = some Q → Q.suspended.truthy = false)
    {l : List String} (hl : s.getUsersByPlanName (n + 1) p = .ok l) :
    s.total m s.fuel P = .ok (l.map fun u => ((s.users.get? u).map m.weigh).getD 0).sum := by
  have hkids : ∀ q, Below s.subs p q → s.activeSubs q = s.subs q := by
    intro q hq
    rw [activeSubs, subs]
    apply List.flatMap_congr
    intro u hu
    apply List.filter_eq_self.2
    intro r hr
    have hbelow : Relation.TransGen s.PlanUnder p r := Relation.TransGen.tail' hq (mem_subs.2 ⟨u, hu, hr⟩)
    obtain ⟨R, hR⟩ := Dict.mem_iff.1 (h.linked.sub_mem hu hr)
    rw [active_of_get? hR, hact r R hbelow hR]
    rfl
  have hend : ¬Deep s.activeSubs (n + 1) p := fun hdeep => hd (hdeep.mono activeSubs_subset)
  have hload : s.load m p = weight s.activeSubs (s.charge m) (n + 1) p := by
    rcases Nat.le_total s.fuel (n + 1) with hle | hle
    · exact (weight_stable _ (hf.ranked.active_not_deep p) hle).symm
    · exact weight_stable _ hend hle
  rw [h.linked.total_load hf.ranked m hP, hload, weight_eq, descend_congr hkids]
  have hperm := (h.linked.getUsersByPlanName_perm hl).map fun u => ((s.users.get? u).map m.weigh).getD 0
  rw [hperm.sum_eq, Collect.sum_map_flatMap]
  rfl

/-- The domains below a plan are those of the users that are listed below it. -/
theorem getDomainsByPlanName_eq {l : List String} (hl : s.getUsersByPlanName (n + 2) p = .ok l)
    (h : Linked s) {k : List String} (hk : s.getDomainsByPlanName p (n + 2) = .ok k) : k = l.flatMap s.ownDomains := by
  obtain ⟨users, husers, hk⟩ := Collect.bind_ok.1 hk
  obtain ⟨f, hf, rfl⟩ := Collect.concatM_inv hk
  rw [getUsersByPlanName] at hl husers
  cases hP : s.plans.get? p with
  | none =>
    rw [hP] at hl
    cases hl
  | some P =>
    rw [hP] at hl husers
    dsimp only at hl husers
    rw [Collect.concatM_eq (g := fun o => [o]) fun o _ => if_pos rfl, List.flatMap_singleton'] at husers
    cases husers
    obtain ⟨g, hg, rfl⟩ := Collect.concatM_inv hl
    rw [List.flatMap_assoc]
    apply List.flatMap_congr
    intro o ho
    obtain ⟨U, hU⟩ := Dict.mem_iff.1 (h.user_mem (seats_of_get? hP ▸ ho))
    obtain ⟨below, hbelow, hdomains⟩ := getDomainsByUserName_eq (hf o ho)
    have hpart := hg o ho
    rw [if_neg (Nat.succ_ne_zero n), hU] at hpart
    rw [getUsersByUserName, hU] at hbelow
    dsimp only at hpart hbelow
    rw [hbelow, Collect.ok_bind] at hpart
    rw [hdomains, ← Except.ok.inj hpart]

theorem Linked.getDomainsByPlanName_total (h : Linked s) (hp : p ∈ s.plans) :
    ∃ l, s.getDomainsByPlanName p (n + 2) = .ok l := by
  apply Collect.bind_total (h.getUsersByPlanName_total 1 hp)
  intro users husers
  apply Collect.concatM_total
  intro u hu
  obtain ⟨q, -, hq⟩ := (getUsersByPlanName_mem husers).1 hu
  exact h.getDomainsByUserName_total n hq

/-- What is counted below a plan is what is listed below it. -/
theorem totals_count_listed (h : Integrity s) (hf : Forest s) (hP : s.plans.get? p = some P) (hd : s.Shallow p)
    (hact : ∀ q Q, Relation.TransGen s.PlanUnder p q → s.plans.get? q = some Q → Q.suspended.truthy = false) :
    (∃ l, s.getUsersByPlanName deepest p = .ok l ∧ l.Nodup ∧ s.totalActiveUsers P = .ok l.length) ∧
      ∃ l, s.getDomainsByPlanName p deepest = .ok l ∧ l.Nodup ∧ s.totalActiveDomains P = .ok l.length := by
  have hp : p ∈ s.plans := Dict.mem_of_get? hP
  obtain ⟨l, hl⟩ := h.linked.getUsersByPlanName_total deepest hp
  obtain ⟨k, hk⟩ := h.linked.getDomainsByPlanName_total (n := 99998) hp
  have hnodup : l.Nodup := h.linked.getUsersByPlanName_nodup hf.ranked hl
  have hthere : ∀ u ∈ l, ∃ U, s.users.get? u = some U := by
    intro u hu
    obtain ⟨q, -, hq⟩ := (getUsersByPlanName_mem hl).1 hu
    exact Dict.mem_iff.1 (h.linked.user_mem hq)
  have hsum := fun m => h.total_listed hf m hP hd hact hl
  have heq := getDomainsByPlanName_eq hl h.linked hk
  refine ⟨⟨l, hl, hnodup, ?_⟩, k, hk, heq ▸ h.ownDomains_nodup hnodup, ?_⟩
  · rw [totalActiveUsers, hsum]
    have hone : l.map (fun u => ((s.users.get? u).map userMeasure.weigh).getD 0) = l.map fun _ => 1 := by
      apply List.map_congr_left
      intro u hu
      obtain ⟨U, hU⟩ := hthere u hu
      rw [hU]
      rfl
    rw [hone, List.map_const', List.sum_replicate, Nat.nsmul_eq_mul, Nat.mul_one]
  · rw [totalActiveDomains, hsum, heq, List.length_flatMap]
    have hdomains : l.map (fun u => ((s.users.get? u).map domainMeasure.weigh).getD 0) =
        l.map fun u => (s.ownDomains u).length := by
      apply List.map_congr_left
      intro u hu
      obtain ⟨U, hU⟩ := hthere u hu
      rw [hU, ownDomains_of_get? hU, Dict.length_keys]
      rfl
    rw [hdomains]

/-- No branch of the sample is as deep as a listing goes. -/
theorem shallow_hosted (p : String) : hosted.Shallow p := by
  intro hdeep
  have hfew : hosted.fuel ≤ deepest := by decide +kernel
  exact consistent_hosted.forest.ranked.not_deep p (hdeep.of_le hfew)

/-- The root plan counts the users and the domains of three plans. -/
theorem totals_count_listed_sample :
    ∃ P, hosted.plans.get? unlimitedPlanName = some P ∧
      (hosted.getUsersByPlanName deepest unlimitedPlanName = .ok ["ann", "bob", "carl"] ∧
        hosted.totalActiveUsers P = .ok 3) ∧
      hosted.getDomainsByPlanName unlimitedPlanName deepest = .ok ["bob.org", "bob.net", "carl.org"] ∧
        hosted.totalActiveDomains P = .ok 3 := by
  obtain ⟨P, hP⟩ := Dict.mem_iff.1 (by decide : unlimitedPlanName ∈ hosted.plans)
  have hactive : ∀ q ∈ hosted.plans.keys, ∀ Q, hosted.plans.get? q = some Q → Q.suspended.truthy = false := by
    decide
  obtain ⟨⟨users, husers, -, hcounted⟩, domains, hdomains, -, htotal⟩ :=
    totals_count_listed consistent_hosted.integrity consistent_hosted.forest hP (shallow_hosted unlimitedPlanName)
      fun q Q _ hQ => hactive q (Dict.mem_keys.2 (Dict.mem_of_get? hQ)) Q hQ
  have hlisted : hosted.getUsersByPlanName deepest unlimitedPlanName = .ok ["ann", "bob", "carl"] := by decide +kernel
  have hfound : hosted.getDomainsByPlanName unlimitedPlanName deepest = .ok ["bob.org", "bob.net", "carl.org"] := by
    decide +kernel
  refine ⟨P, hP, ⟨hlisted, ?_⟩, hfound, ?_⟩
  · cases hlisted.symm.trans husers
    exact hcounted
  · cases hfound.symm.trans hdomains
    exact htotal

end Store
end JXPanel

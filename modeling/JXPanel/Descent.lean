import JXPanel.Links
import JXPanel.Hierarchy

namespace JXPanel
set_option autoImplicit true

open Hierarchy

namespace Store
variable {s : Store}

/-- The plans of the users that a plan lists. -/
def subs (s : Store) (p : String) : List String := (s.seats p).flatMap s.ownPlans

theorem mem_subs : q ∈ s.subs p ↔ ∃ u ∈ s.seats p, q ∈ s.ownPlans u := List.mem_flatMap

theorem getUsersByPlanName_mem {n : Nat} {l : List String}
    (h : s.getUsersByPlanName (n + 1) p = .ok l) :
    u ∈ l ↔ ∃ q ∈ descend s.subs (n + 1) p, u ∈ s.seats q := by
  induction n generalizing p l u with
  | zero =>
    rw [getUsersByPlanName] at h
    split at h
    · cases h
    · rename_i P hP
      rw [Collect.mem_concatM h]
      simp [descend, seats_of_get? hP]
  | succ n ih =>
    rw [getUsersByPlanName] at h
    split at h
    · cases h
    · rename_i P hP
      rw [Collect.mem_concatM h, ← seats_of_get? hP]
      constructor
      · rintro ⟨o, ho, a, ha, hu⟩
        rw [if_neg (Nat.succ_ne_zero n)] at ha
        split at ha
        · cases ha
          exact ⟨p, mem_descend_succ.2 (.inl rfl), by simpa [List.mem_singleton.1 hu] using ho⟩
        · rename_i U hU
          obtain ⟨below, hbelow, ha⟩ := Collect.bind_ok.1 ha
          cases ha
          rcases List.mem_cons.1 hu with rfl | hu
          · exact ⟨p, mem_descend_succ.2 (.inl rfl), ho⟩
          · obtain ⟨i, hi, b, hb, hub⟩ := (Collect.mem_concatM hbelow).1 hu
            obtain ⟨q, hq, huq⟩ := (ih hb).1 hub
            have hsub : i ∈ s.subs p := mem_subs.2 ⟨o, ho, ownPlans_of_get? hU ▸ hi⟩
            exact ⟨q, mem_descend_succ.2 (.inr ⟨i, hsub, hq⟩), huq⟩
      · rintro ⟨q, hq, hu⟩
        rcases mem_descend_succ.1 hq with rfl | ⟨i, hi, hq⟩
        · obtain ⟨a, ha, -⟩ := Collect.concatM_part h u (seats_of_get? hP ▸ hu)
          refine ⟨u, hu, a, ha, ?_⟩
          rw [if_neg (Nat.succ_ne_zero n)] at ha
          split at ha
          · cases ha
            exact List.mem_singleton_self u
          · obtain ⟨below, -, ha⟩ := Collect.bind_ok.1 ha
            cases ha
            exact List.mem_cons_self
        · obtain ⟨o, ho, hio⟩ := mem_subs.1 hi
          obtain ⟨a, ha, -⟩ := Collect.concatM_part h o (seats_of_get? hP ▸ ho)
          refine ⟨o, ho, a, ha, ?_⟩
          rw [if_neg (Nat.succ_ne_zero n)] at ha
          obtain ⟨U, hU, hiU⟩ := mem_ownPlans.1 hio
          rw [hU] at ha
          obtain ⟨below, hbelow, ha⟩ := Collect.bind_ok.1 ha
          cases ha
          obtain ⟨b, hb, hsub⟩ := Collect.concatM_part hbelow i hiU
          exact List.mem_cons_of_mem _ (hsub ((ih hb).2 ⟨q, hq, hu⟩))

theorem getPlansByUserName_mem {n : Nat} {l : List String}
    (h : s.getPlansByUserName (n + 1) u = .ok l) :
    q ∈ l ↔ ∃ o ∈ s.ownPlans u, q ∈ descend s.subs (n + 1) o := by
  induction n generalizing u l q with
  | zero =>
    rw [getPlansByUserName] at h
    split at h
    · cases h
    · rename_i U hU
      rw [Collect.mem_concatM h]
      simp [descend, ownPlans_of_get? hU]
  | succ n ih =>
    rw [getPlansByUserName] at h
    split at h
    · cases h
    · rename_i U hU
      have hpart := Collect.concatM_part h
      rw [Collect.mem_concatM h, ← ownPlans_of_get? hU]
      rw [← ownPlans_of_get? hU] at hpart
      have hlevel : ∀ o ∈ s.ownPlans u, ∃ P below, s.plans.get? o = some P ∧
          Collect.concatM (fun i => s.getPlansByUserName (n + 1) i) P.users.keys = .ok below := by
        intro o ho
        obtain ⟨a, ha, -⟩ := hpart o ho
        rw [if_neg (Nat.succ_ne_zero n)] at ha
        split at ha
        · cases ha
        · rename_i P hP
          obtain ⟨below, hbelow, -⟩ := Collect.bind_ok.1 ha
          exact ⟨P, below, hP, hbelow⟩
      refine exists_congr fun o => and_congr_right fun ho => ?_
      obtain ⟨P, below, hP, hbelow⟩ := hlevel o ho
      rw [if_neg (Nat.succ_ne_zero n), hP]
      dsimp only
      rw [hbelow]
      have hstep : q ∈ below ↔ ∃ r ∈ s.subs o, q ∈ descend s.subs (n + 1) r := by
        rw [Collect.mem_concatM hbelow, ← seats_of_get? hP]
        constructor
        · rintro ⟨i, hi, b, hb, hq⟩
          obtain ⟨r, hr, hqr⟩ := (ih hb).1 hq
          exact ⟨r, mem_subs.2 ⟨i, hi, hr⟩, hqr⟩
        · rintro ⟨r, hr, hqr⟩
          obtain ⟨i, hi, hri⟩ := mem_subs.1 hr
          obtain ⟨b, hb, -⟩ := Collect.concatM_part hbelow i (seats_of_get? hP ▸ hi)
          exact ⟨i, hi, b, hb, (ih hb).2 ⟨r, hri, hqr⟩⟩
      rw [mem_descend_succ, ← hstep]
      constructor
      · rintro ⟨a, ha, hq⟩
        cases ha
        exact List.mem_cons.1 hq
      · exact fun hq => ⟨o :: below, rfl, List.mem_cons.2 hq⟩

theorem getUsersByUserName_mem {n : Nat} {l : List String}
    (h : s.getUsersByUserName u (n + 1) = .ok l) :
    v ∈ l ↔ ∃ o ∈ s.ownPlans u, ∃ q ∈ descend s.subs (n + 1) o, v ∈ s.seats q := by
  unfold getUsersByUserName at h
  split at h
  · cases h
  · rename_i U hU
    rw [Collect.mem_concatM h, ← ownPlans_of_get? hU]
    refine exists_congr fun o => and_congr_right fun ho => ?_
    obtain ⟨a, ha, -⟩ := Collect.concatM_part h o (ownPlans_of_get? hU ▸ ho)
    rw [← getUsersByPlanName_mem ha, ha]
    simp

theorem getDomainsByUserName_mem {n : Nat} {l : List String}
    (h : s.getDomainsByUserName u (n + 2) = .ok l) :
    d ∈ l ↔ d ∈ s.ownDomains u ∨
      ∃ o ∈ s.ownPlans u, ∃ q ∈ descend s.subs (n + 1) o, ∃ v ∈ s.seats q, d ∈ s.ownDomains v := by
  unfold getDomainsByUserName at h
  split at h
  · cases h
  · rename_i U hU
    rw [if_neg (by omega)] at h
    obtain ⟨users, husers, h⟩ := Collect.bind_ok.1 h
    obtain ⟨below, hbelow, h⟩ := Collect.bind_ok.1 h
    cases h
    rw [List.mem_append, ownDomains_of_get? hU, Collect.mem_concatM hbelow]
    refine or_congr_right ?_
    constructor
    · rintro ⟨v, hv, a, ha, hd⟩
      obtain ⟨o, ho, q, hq, hvq⟩ := (getUsersByUserName_mem husers).1 hv
      split at ha
      · cases ha
      · rename_i V hV
        cases ha
        exact ⟨o, ho, q, hq, v, hvq, ownDomains_of_get? hV ▸ hd⟩
    · rintro ⟨o, ho, q, hq, v, hvq, hd⟩
      have hv : v ∈ users := (getUsersByUserName_mem husers).2 ⟨o, ho, q, hq, hvq⟩
      obtain ⟨V, hV, hdV⟩ := mem_ownDomains.1 hd
      exact ⟨v, hv, V.domains.keys, by rw [hV], hdV⟩

/-- The users that the traversals for a delete of a plan meet. -/
def usersMet (s : Store) (p : String) : Set String :=
  {u | ∃ q ∈ descend s.subs deepest p, u ∈ s.seats q}

def plansMet (s : Store) (p : String) : Set String :=
  {q | ∃ u ∈ s.usersMet p, ∃ o ∈ s.ownPlans u, q ∈ descend s.subs deepest o}

def domainsMet (s : Store) (p : String) : Set String :=
  {d | ∃ u ∈ s.usersMet p, d ∈ s.ownDomains u ∨
    ∃ o ∈ s.ownPlans u, ∃ q ∈ descend s.subs (deepest - 1) o, ∃ v ∈ s.seats q, d ∈ s.ownDomains v}

/-- What a delete of a plan finds, by membership. -/
structure Contents (s : Store) (name : String) (arr : Report) : Prop where
  users : ∀ u, u ∈ arr.users ↔ u ∈ s.usersMet name
  plans : ∀ q, q ∈ arr.plans ↔ q ∈ s.plansMet name
  domains : ∀ d, d ∈ arr.domains ↔ d ∈ s.domainsMet name

theorem planContents_mem {arr : Report} (h : s.planContents name = .ok arr) :
    s.Contents name arr := by
  unfold planContents at h
  obtain ⟨users, husers, h⟩ := Collect.bind_ok.1 h
  obtain ⟨parts, hparts, h⟩ := Collect.bind_ok.1 h
  cases h
  have hpart : ∀ pr, pr ∈ parts ↔ ∃ o ∈ users,
      s.getPlansByUserName deepest o = .ok pr.1 ∧ s.getDomainsByUserName o deepest = .ok pr.2 := by
    intro pr
    rw [Collect.mem_concatM hparts]
    refine exists_congr fun o => and_congr_right fun _ => ?_
    constructor
    · rintro ⟨a, ha, hpr⟩
      obtain ⟨plans, hplans, ha⟩ := Collect.bind_ok.1 ha
      obtain ⟨domains, hdomains, ha⟩ := Collect.bind_ok.1 ha
      cases ha
      cases List.mem_singleton.1 hpr
      exact ⟨hplans, hdomains⟩
    · rintro ⟨hplans, hdomains⟩
      rw [hplans, hdomains]
      exact ⟨_, rfl, List.mem_singleton_self _⟩
  have htotal : ∀ o ∈ users, ∃ pr ∈ parts,
      s.getPlansByUserName deepest o = .ok pr.1 ∧ s.getDomainsByUserName o deepest = .ok pr.2 := by
    intro o ho
    obtain ⟨a, ha, -⟩ := Collect.concatM_part hparts o ho
    obtain ⟨plans, hplans, ha⟩ := Collect.bind_ok.1 ha
    obtain ⟨domains, hdomains, -⟩ := Collect.bind_ok.1 ha
    exact ⟨(plans, domains), (hpart _).2 ⟨o, ho, hplans, hdomains⟩, hplans, hdomains⟩
  have hmet : ∀ u, u ∈ users ↔ u ∈ s.usersMet name := fun u => getUsersByPlanName_mem husers
  refine ⟨hmet, fun q => ?_, fun d => ?_⟩
  · rw [List.mem_flatMap]
    constructor
    · rintro ⟨pr, hpr, hq⟩
      obtain ⟨o, ho, hplans, -⟩ := (hpart pr).1 hpr
      exact ⟨o, (hmet o).1 ho, (getPlansByUserName_mem hplans).1 hq⟩
    · rintro ⟨u, hu, hq⟩
      obtain ⟨pr, hpr, hplans, -⟩ := htotal u ((hmet u).2 hu)
      exact ⟨pr, hpr, (getPlansByUserName_mem hplans).2 hq⟩
  · rw [List.mem_flatMap]
    constructor
    · rintro ⟨pr, hpr, hd⟩
      obtain ⟨o, ho, -, hdomains⟩ := (hpart pr).1 hpr
      exact ⟨o, (hmet o).1 ho, (getDomainsByUserName_mem hdomains).1 hd⟩
    · rintro ⟨u, hu, hd⟩
      obtain ⟨pr, hpr, -, hdomains⟩ := htotal u ((hmet u).2 hu)
      exact ⟨pr, hpr, (getDomainsByUserName_mem hdomains).2 hd⟩

section Total
variable (h : Linked s)
include h

theorem Linked.sub_mem (hu : u ∈ s.seats p) (hq : q ∈ s.ownPlans u) : q ∈ s.plans :=
  mem_plans_of_ownerOf (h.owned u p q hu hq)

theorem Linked.user_mem (hu : u ∈ s.seats p) : u ∈ s.users :=
  mem_users_of_planOf (h.seated u p hu)

theorem Linked.getUsersByPlanName_total (n : Nat) (hp : p ∈ s.plans) :
    ∃ l, s.getUsersByPlanName n p = .ok l := by
  induction n generalizing p with
  | zero =>
    obtain ⟨P, hP⟩ := Dict.mem_iff.1 hp
    rw [getUsersByPlanName, hP]
    exact ⟨_, rfl⟩
  | succ n ih =>
    obtain ⟨P, hP⟩ := Dict.mem_iff.1 hp
    rw [getUsersByPlanName, hP]
    refine Collect.concatM_total fun o ho => ?_
    have hseat : o ∈ s.seats p := seats_of_get? hP ▸ ho
    split
    · exact ⟨_, rfl⟩
    · obtain ⟨U, hU⟩ := Dict.mem_iff.1 (h.user_mem hseat)
      rw [hU]
      obtain ⟨below, hbelow⟩ := Collect.concatM_total (f := fun i => s.getUsersByPlanName n i)
        (l := U.subPlans.keys) fun i hi => ih (h.sub_mem hseat (ownPlans_of_get? hU ▸ hi))
      exact ⟨o :: below, Collect.bind_ok.2 ⟨below, hbelow, rfl⟩⟩

theorem Linked.getPlansByUserName_total (n : Nat) (hu : u ∈ s.seats p) :
    ∃ l, s.getPlansByUserName n u = .ok l := by
  induction n generalizing u p with
  | zero =>
    obtain ⟨U, hU⟩ := Dict.mem_iff.1 (h.user_mem hu)
    rw [getPlansByUserName, hU]
    exact ⟨_, rfl⟩
  | succ n ih =>
    obtain ⟨U, hU⟩ := Dict.mem_iff.1 (h.user_mem hu)
    rw [getPlansByUserName, hU]
    refine Collect.concatM_total fun o ho => ?_
    split
    · exact ⟨_, rfl⟩
    · obtain ⟨P, hP⟩ := Dict.mem_iff.1 (h.sub_mem hu (ownPlans_of_get? hU ▸ ho))
      rw [hP]
      obtain ⟨below, hbelow⟩ := Collect.concatM_total (f := fun i => s.getPlansByUserName n i)
        (l := P.users.keys) fun i hi => ih (seats_of_get? hP ▸ hi)
      exact ⟨o :: below, Collect.bind_ok.2 ⟨below, hbelow, rfl⟩⟩

theorem Linked.getUsersByUserName_total (n : Nat) (hu : u ∈ s.seats p) :
    ∃ l, s.getUsersByUserName u n = .ok l := by
  obtain ⟨U, hU⟩ := Dict.mem_iff.1 (h.user_mem hu)
  rw [getUsersByUserName, hU]
  apply Collect.concatM_total
  intro o ho
  exact h.getUsersByPlanName_total n (h.sub_mem hu (ownPlans_of_get? hU ▸ ho))

theorem Linked.getDomainsByUserName_total (n : Nat) (hu : u ∈ s.seats p) :
    ∃ l, s.getDomainsByUserName u (n + 2) = .ok l := by
  obtain ⟨U, hU⟩ := Dict.mem_iff.1 (h.user_mem hu)
  rw [getDomainsByUserName, hU]
  simp only [if_neg (show ¬ n + 2 ≤ 1 by omega)]
  apply Collect.bind_total (h.getUsersByUserName_total (n + 1) hu)
  intro users husers
  apply Collect.bind_total
  · apply Collect.concatM_total
    intro v hv
    obtain ⟨o, -, q, -, hvq⟩ := (getUsersByUserName_mem husers).1 hv
    obtain ⟨V, hV⟩ := Dict.mem_iff.1 (h.user_mem hvq)
    rw [hV]
    exact ⟨_, rfl⟩
  · intro below _
    exact ⟨_, rfl⟩

theorem Linked.planContents_total (hp : p ∈ s.plans) : ∃ arr, s.planContents p = .ok arr := by
  apply Collect.bind_total (h.getUsersByPlanName_total deepest hp)
  intro users husers
  apply Collect.bind_total
  · apply Collect.concatM_total
    intro o ho
    obtain ⟨q, -, hq⟩ := (getUsersByPlanName_mem husers).1 ho
    apply Collect.bind_total (h.getPlansByUserName_total deepest hq)
    intro plans _
    apply Collect.bind_total (h.getDomainsByUserName_total (deepest - 2) hq)
    intro domains _
    exact ⟨_, rfl⟩
  · intro parts _
    exact ⟨_, rfl⟩

end Total

/-- The nesting below a plan is no deeper than a delete goes. -/
def Shallow (s : Store) (p : String) : Prop := ¬ Deep s.subs deepest p

/-- Where the nesting is shallow, the traversals meet everything below. -/
theorem Shallow.usersMet_iff (hs : s.Shallow p) :
    u ∈ s.usersMet p ↔ ∃ q, Below s.subs p q ∧ u ∈ s.seats q :=
  exists_congr fun _ => and_congr_left fun _ => mem_descend_iff hs

section Met
variable (hs : s.Shallow p)
include hs

/-- Whatever is below a plan of a user below a plan is below that plan. -/
theorem Shallow.below_of_met (hu : u ∈ s.usersMet p) (ho : o ∈ s.ownPlans u)
    (hq : Below s.subs o q) : Below s.subs p q := by
  obtain ⟨r, hr, hur⟩ := hs.usersMet_iff.1 hu
  exact (hr.tail (mem_subs.2 ⟨u, hur, ho⟩)).trans hq

theorem Shallow.plansMet_iff : q ∈ s.plansMet p ↔ ∃ u ∈ s.usersMet p, q ∈ s.ownPlans u := by
  constructor
  · rintro ⟨u, hu, o, ho, hq⟩
    rcases (below_of_mem_descend hq).cases_tail with rfl | ⟨r, hr, hqr⟩
    · exact ⟨u, hu, ho⟩
    · obtain ⟨v, hv, hqv⟩ := mem_subs.1 hqr
      exact ⟨v, hs.usersMet_iff.2 ⟨r, hs.below_of_met hu ho hr, hv⟩, hqv⟩
  · rintro ⟨u, hu, hq⟩
    exact ⟨u, hu, q, hq, self_mem_descend (Nat.succ_pos _) q⟩

theorem Shallow.domainsMet_iff : d ∈ s.domainsMet p ↔ ∃ u ∈ s.usersMet p, d ∈ s.ownDomains u := by
  constructor
  · rintro ⟨u, hu, hd | ⟨o, ho, q, hq, v, hv, hd⟩⟩
    · exact ⟨u, hu, hd⟩
    · exact ⟨v, hs.usersMet_iff.2 ⟨q, hs.below_of_met hu ho (below_of_mem_descend hq), hv⟩, hd⟩
  · rintro ⟨u, hu, hd⟩
    exact ⟨u, hu, .inl hd⟩

end Met

end Store
end JXPanel

import JXPanel.Consistency

namespace JXPanel
set_option autoImplicit true

open Hierarchy

namespace Store
variable {s s' : Store}

/-- A delete removes exactly what hangs below the deleted record, changes of the other records
only the entry for the deleted name, and leaves a consistent store. -/
theorem delete_removes_subtree (s : Store) (h : Integrity s) (hs : ∀ p, s.Shallow p) :
    (∀ p o, s.ownerOf p = some o → o ∈ s.users →
      ∃ s' rep, s.deletePlan p = (s', .ok rep) ∧ Integrity s' ∧
        Removes s s' ({p} ∪ s.plansOwned (s.usersUnder [p])) (s.usersUnder [p])
          (s.domainsOwned (s.usersUnder [p])) (fun _ P => P)
          (fun u U => if u = o then { U with subPlans := U.subPlans.erase p } else U)) ∧
    (∀ u U, s.users.get? u = some U →
      ∃ s' rep, s.deleteUser u = (s', .ok rep) ∧ Integrity s' ∧
        Removes s s' (s.plansOwned ({u} ∪ s.usersUnder (s.ownPlans u)))
          ({u} ∪ s.usersUnder (s.ownPlans u))
          (s.domainsOwned ({u} ∪ s.usersUnder (s.ownPlans u)))
          (fun q P => if q = U.plan then { P with users := P.users.erase u } else P)
          (fun _ V => V)) ∧
    (∀ d D, s.getDomain? d = some D →
      ∃ s' rep, s.deleteDomain d = (s', .ok rep) ∧ Integrity s' ∧
        Removes s s' ∅ ∅ {d} (fun _ P => P)
          (fun u U => if u = D.owner then { U with domains := U.domains.erase d } else U)) := by
  refine ⟨fun p o hp ho => ?_, fun u U hU => ?_, fun d D hD => ?_⟩
  · obtain ⟨arr, hdel, ht⟩ := h.deletePlan (hs p) hp ho
    exact ⟨_, arr, hdel, h.removePlan hp ht, ht.removes⟩
  · obtain ⟨s', rep, hdel, hint, hrem, -⟩ := h.deleteUser (fun o _ => hs o) hU
    exact ⟨s', rep, hdel, hint, hrem⟩
  · have hown : s.domainOwner d = some D.owner := by rw [domainOwner, hD]; rfl
    exact ⟨_, _, h.deleteDomain hD, h.detachDomain hown, removes_deleteDomain d D.owner⟩

theorem integrity_sample : Integrity (installed.run sampleCalls) :=
  reached_sample.keeps integrity_installed fun _ _ hi hc => hi.exec hc

theorem shallow_sample (p : String) : (installed.run sampleCalls).Shallow p :=
  shallow_of_two_levels (by decide) p

theorem delete_removes_subtree_sample :
    ∃ s' rep, (installed.run sampleCalls).deletePlan "gold" = (s', .ok rep) ∧ Integrity s' ∧
      s'.users.get? "bob" = none := by
  obtain ⟨s', rep, hdel, hint, hrem⟩ :=
    (delete_removes_subtree _ integrity_sample shallow_sample).1 "gold" "ann" (by decide) (by decide)
  have hbob : "bob" ∈ (installed.run sampleCalls).seats "gold" := by decide
  exact ⟨s', rep, hdel, hint,
    hrem.users_gone "bob" (mem_usersUnder_singleton.2 ⟨"gold", .refl, hbob⟩)⟩

/-- The lists of a report name exactly what was there before the delete and not after it. -/
structure ReportsExactly (s s' : Store) (rep : Report) : Prop where
  plans : ∀ q, q ∈ rep.plans ↔ q ∈ s.plans ∧ q ∉ s'.plans
  users : ∀ u, u ∈ rep.users ↔ u ∈ s.users ∧ u ∉ s'.users
  domains : ∀ d, d ∈ rep.domains ↔ d ∈ s.domains ∧ d ∉ s'.domains

theorem listed_of_met (h : q ∈ s.plansMet p) : ∃ v, q ∈ s.ownPlans v := by
  obtain ⟨u, -, o, ho, hq⟩ := h
  rcases parent_mem_descend hq with rfl | ⟨r, -, hr⟩
  · exact ⟨u, ho⟩
  · obtain ⟨v, -, hv⟩ := mem_subs.1 hr
    exact ⟨v, hv⟩

theorem owner_of_domain_met (h : d ∈ s.domainsMet p) : ∃ v, d ∈ s.ownDomains v := by
  obtain ⟨u, -, hd | ⟨-, -, -, -, v, -, hd⟩⟩ := h
  · exact ⟨u, hd⟩
  · exact ⟨v, hd⟩

theorem mem_domains_of_owner (h : s.domainOwner d = some u) : d ∈ s.domains := by
  obtain ⟨D, hD, -⟩ := domainOwner_eq.1 h
  obtain ⟨x, hx⟩ : ∃ x, s.domains.get? d = some x := by
    cases hx : s.domains.get? d with
    | none =>
      rw [getDomain?, hx] at hD
      cases hD
    | some x => exact ⟨x, rfl⟩
  exact Dict.mem_of_get? hx

theorem mem_plans_removePlan {arr : Report} :
    q ∈ (s.removePlan o p arr).plans ↔ q ∈ s.plans ∧ q ≠ p ∧ q ∉ arr.plans := by
  rw [removePlan, Dict.mem_eraseAll, Dict.mem_erase]
  tauto

theorem mem_users_removePlan {arr : Report} :
    u ∈ (s.removePlan o p arr).users ↔ u ∈ s.users ∧ u ∉ arr.users := by
  rw [removePlan, Dict.mem_eraseAll, Dict.mem_modify]
  tauto

theorem mem_domains_removePlan {arr : Report} :
    d ∈ (s.removePlan o p arr).domains ↔ d ∈ s.domains ∧ d ∉ arr.domains := by
  rw [removePlan, Dict.mem_eraseAll]
  tauto

section Report
variable (h : Integrity s)
include h

/-- Everything that a delete of a plan finds is in the store. -/
theorem Integrity.met_mem {arr : Report} (hc : s.Contents p arr) :
    (∀ q ∈ arr.plans, q ∈ s.plans) ∧ (∀ u ∈ arr.users, u ∈ s.users) ∧
      ∀ d ∈ arr.domains, d ∈ s.domains := by
  refine ⟨fun q hq => ?_, fun u hu => ?_, fun d hd => ?_⟩
  · obtain ⟨v, hv⟩ := listed_of_met ((hc.plans q).1 hq)
    exact mem_plans_of_ownerOf (h.owned q v hv)
  · obtain ⟨q, -, huq⟩ := (hc.users u).1 hu
    exact mem_users_of_planOf ((h.seat u q).2 huq)
  · obtain ⟨v, hv⟩ := owner_of_domain_met ((hc.domains d).1 hd)
    exact mem_domains_of_owner ((h.domain d v).2 hv)

/-- The report of a deleted plan lacks the plan itself. -/
theorem Integrity.deletePlan_report {rep : Report} (hdel : s.deletePlan p = (s', .ok rep)) :
    ReportsExactly s s' rep ↔ p ∈ s.plansMet p := by
  rcases deletePlan_cases hdel with ⟨-, f, hf⟩ | ⟨plan, owner, arr, hp, ho, harr, rfl, hr⟩
  · cases hf
  · cases hr
    have hc := planContents_mem harr
    obtain ⟨hplans, husers, hdomains⟩ := h.met_mem hc
    rw [← hc.plans]
    constructor
    · intro he
      refine (he.plans p).2 ⟨Dict.mem_of_get? hp, fun hm => ?_⟩
      exact (mem_plans_removePlan.1 hm).2.1 rfl
    · intro hmet
      refine ⟨fun q => ?_, fun u => ?_, fun d => ?_⟩
      · rw [mem_plans_removePlan]
        constructor
        · intro hq
          exact ⟨hplans q hq, fun hm => hm.2.2 hq⟩
        · rintro ⟨hq, hn⟩
          by_contra hno
          exact hn ⟨hq, fun hqp => hno (hqp ▸ hmet), hno⟩
      · rw [mem_users_removePlan]
        constructor
        · intro hu
          exact ⟨husers u hu, fun hm => hm.2 hu⟩
        · rintro ⟨hu, hn⟩
          by_contra hno
          exact hn ⟨hu, hno⟩
      · rw [mem_domains_removePlan]
        constructor
        · intro hd
          exact ⟨hdomains d hd, fun hm => hm.2 hd⟩
        · rintro ⟨hd, hn⟩
          by_contra hno
          exact hn ⟨hd, hno⟩

/-- Two plans of one user are met together. -/
theorem Integrity.met_together (ho : o ∈ s.ownPlans u) (hr : r ∈ s.ownPlans u)
    (hmet : o ∈ s.plansMet p) : r ∈ s.plansMet p := by
  obtain ⟨v, hv, q, hq, hoq⟩ := hmet
  rcases parent_mem_descend hoq with rfl | ⟨x, hx, hox⟩
  · obtain rfl := h.owner_unique hq ho
    exact ⟨v, hv, r, hr, self_mem_descend (Nat.succ_pos _) r⟩
  · obtain ⟨w, hw, how⟩ := mem_subs.1 hox
    obtain rfl := h.owner_unique how ho
    exact ⟨v, hv, q, hq, kid_mem_descend_succ hx (mem_subs.2 ⟨w, hw, hr⟩)⟩

end Report

/-- A plan that is gone and that nobody lists stays gone and out of the report. -/
theorem deleteSubPlans_unlisted {os : List String} {subs rep : Report}
    (hrun : deleteSubPlans os s subs = (s', .ok rep)) (hx : x ∉ s.plans)
    (hl : ∀ v, x ∉ s.ownPlans v) (hs : x ∉ subs.plans) : x ∉ s'.plans ∧ x ∉ rep.plans := by
  induction os generalizing s subs with
  | nil =>
    cases hrun
    exact ⟨hx, hs⟩
  | cons o os ih =>
    rw [deleteSubPlans] at hrun
    split at hrun
    · cases hrun
    · rename_i s₁ res hdel
      rcases deletePlan_cases hdel with ⟨-, f, hf⟩ | ⟨plan, owner, arr, -, -, harr, rfl, hr⟩
      · cases hf
      · cases hr
        have hres : x ∉ res.plans := by
          intro hm
          obtain ⟨v, hv⟩ := listed_of_met (((planContents_mem harr).plans x).1 hm)
          exact hl v hv
        refine ih hrun (fun hm => hx (mem_plans_removePlan.1 hm).1)
          (fun v hv => hl v ((mem_ownPlans_removePlan s).1 hv).2.1) fun hm => ?_
        exact (List.mem_append.1 hm).elim hs hres

theorem dropDomains_plans (u : String) (l : List String) (s : Store) :
    (Collect.runAll (dropDomainOf u) l s).1.plans = s.plans := by
  refine Collect.runAll_keeps (P := fun t : Store => t.plans = s.plans) (fun t d _ ht => ?_) rfl
  unfold dropDomainOf
  split
  · exact ht
  · exact ht
  · dsimp only
    split <;> exact ht

/-- What is left of a store by the part of `deleteUser` after the loop over the sub-plans. -/
theorem deleteUser_members {s₂ : Store} (hfull : ∀ x, s.domains.get? x ≠ some none)
    (hdrop : Collect.runAll (dropDomainOf u) s.domains.keys (s.detachUser u) = (s₂, .ok ())) :
    (∀ q, q ∈ (s₂.eraseUser u).plans ↔ q ∈ s.plans) ∧
    (∀ v, v ∈ (s₂.eraseUser u).users ↔ v ≠ u ∧ v ∈ s.users) ∧
    ∀ d, d ∈ (s₂.eraseUser u).domains ↔ d ∈ s.domains ∧ s.domainOwner d ≠ some u := by
  have hfull' : ∀ x, (s.detachUser u).domains.get? x ≠ some none := hfull
  obtain ⟨s₃, hrun, hp, hus, -, hd⟩ := dropDomains_spec u s.domains.keys hfull'
  rw [hdrop] at hrun
  cases hrun
  refine ⟨fun q => ?_, fun v => ?_, fun d => ?_⟩
  · rw [eraseUser, hp, detachUser, Dict.mem_mapVals]
  · rw [eraseUser, Dict.mem_erase, hus]
    rfl
  · rw [Dict.mem_iff]
    change (∃ x, s₂.domains.get? d = some x) ↔ _
    rw [hd]
    change (∃ x, (if d ∈ s.domains.keys ∧ s.domainOwner d = some u then none
      else s.domains.get? d) = some x) ↔ _
    rw [Dict.mem_iff (d := s.domains)]
    by_cases hown : s.domainOwner d = some u
    · have hm : d ∈ s.domains.keys := Dict.mem_keys.2 (mem_domains_of_owner hown)
      simp [hown, hm]
    · simp [hown]

/-- The one case in which a report with sub-plans is right: a cyclic nesting, with names of the
plans that are names of deleted users and domains as well. -/
def CyclicReport (s : Store) (u : String) : Prop :=
  ∃ o, s.ownPlans u = [o] ∧ o ∈ s.plansMet o ∧
    (∀ q ∈ s.plansMet o, q = u ∨ q ∈ s.usersMet o) ∧ (u ∈ s.plansMet o ∨ u ∈ s.usersMet o) ∧
    (∀ q ∈ s.plansMet o, q ∈ s.ownDomains u ∨ q ∈ s.domainsMet o) ∧
    ∀ d ∈ s.ownDomains u, d ∈ s.plansMet o ∨ d ∈ s.domainsMet o

theorem Integrity.full (h : Integrity s) (x : String) : s.domains.get? x ≠ some none := by
  intro hx
  have hsome := h.filled x (Dict.mem_of_get? hx)
  rw [getDomain?, hx] at hsome
  exact Bool.false_ne_true hsome

section Lists
variable {s₂ : Store} {rep : Report} (h : Integrity s) (hu : u ∈ s.users)
include h hu

/-- The report of a deleted user without plans names the user and none of his domains. -/
theorem Integrity.report_no_plans
    (hdrop : Collect.runAll (dropDomainOf u) s.domains.keys (s.detachUser u) = (s₂, .ok ())) :
    ReportsExactly s (s₂.eraseUser u) { plans := [], users := [u], domains := [] } ↔
      s.ownDomains u = [] := by
  obtain ⟨hp, hus, hds⟩ := deleteUser_members h.full hdrop
  constructor
  · intro he
    apply List.eq_nil_iff_forall_not_mem.2
    intro d hd
    have hdu := (h.domain d u).2 hd
    have hgone : d ∉ (s₂.eraseUser u).domains := fun hm => ((hds d).1 hm).2 hdu
    exact absurd ((he.domains d).2 ⟨mem_domains_of_owner hdu, hgone⟩) List.not_mem_nil
  · intro hnil
    constructor
    · intro q
      rw [hp]
      exact ⟨fun hq => absurd hq List.not_mem_nil, fun hq => (hq.2 hq.1).elim⟩
    · intro v
      rw [hus, List.mem_singleton]
      constructor
      · intro hv
        exact ⟨hv ▸ hu, fun hn => hn.1 hv⟩
      · rintro ⟨hv, hn⟩
        by_contra hne
        exact hn ⟨hne, hv⟩
    · intro d
      rw [hds]
      constructor
      · intro hd
        exact absurd hd List.not_mem_nil
      · rintro ⟨hm, hn⟩
        refine (hn ⟨hm, fun hdu => ?_⟩).elim
        rw [h.domain, hnil] at hdu
        exact absurd hdu List.not_mem_nil

/-- The report of a deleted user with one plan puts the plans below it into every list. -/
theorem Integrity.report_one_plan {arr : Report} (ho : o ∈ s.ownPlans u) (hc : s.Contents o arr)
    (hdrop : Collect.runAll (dropDomainOf u) (s.removePlan r o arr).domains.keys
      ((s.removePlan r o arr).detachUser u) = (s₂, .ok ()))
    (hrep : rep = ⟨arr.plans, arr.plans ++ arr.users, arr.plans ++ arr.domains⟩) :
    ReportsExactly s (s₂.eraseUser u) rep ↔ o ∈ s.plansMet o ∧
      (∀ q ∈ s.plansMet o, q = u ∨ q ∈ s.usersMet o) ∧ (u ∈ s.plansMet o ∨ u ∈ s.usersMet o) ∧
      (∀ q ∈ s.plansMet o, q ∈ s.ownDomains u ∨ q ∈ s.domainsMet o) ∧
      ∀ d ∈ s.ownDomains u, d ∈ s.plansMet o ∨ d ∈ s.domainsMet o := by
  obtain ⟨hplans, husers, hdomains⟩ := h.met_mem hc
  have hfull : ∀ x, (s.removePlan r o arr).domains.get? x ≠ some none := by
    intro x
    rw [Store.removePlan, Dict.get?_eraseAll]
    split
    · simp
    · exact h.full x
  obtain ⟨hp, hus, hds⟩ := deleteUser_members hfull hdrop
  have hgp : ∀ q, (q ∈ s.plans ∧ q ∉ (s₂.eraseUser u).plans) ↔ q = o ∨ q ∈ arr.plans := by
    intro q
    rw [hp, mem_plans_removePlan]
    constructor
    · rintro ⟨hq, hn⟩
      by_contra hno
      exact hn ⟨hq, fun he => hno (.inl he), fun hm => hno (.inr hm)⟩
    · rintro (rfl | hq)
      · exact ⟨mem_plans_of_ownerOf (h.owned q u ho), fun hn => hn.2.1 rfl⟩
      · exact ⟨hplans q hq, fun hn => hn.2.2 hq⟩
  have hgu : ∀ v, (v ∈ s.users ∧ v ∉ (s₂.eraseUser u).users) ↔ v = u ∨ v ∈ arr.users := by
    intro v
    rw [hus, mem_users_removePlan]
    constructor
    · rintro ⟨hv, hn⟩
      by_contra hno
      exact hn ⟨fun he => hno (.inl he), hv, fun hm => hno (.inr hm)⟩
    · rintro (rfl | hv)
      · exact ⟨hu, fun hn => hn.1 rfl⟩
      · exact ⟨husers v hv, fun hn => hn.2.2 hv⟩
  have hgd : ∀ d, (d ∈ s.domains ∧ d ∉ (s₂.eraseUser u).domains) ↔
      d ∈ s.ownDomains u ∨ d ∈ arr.domains := by
    intro d
    rw [hds, mem_domains_removePlan, domainOwner_removePlan]
    constructor
    · rintro ⟨hd, hn⟩
      by_contra hno
      have hda : d ∉ arr.domains := fun hm => hno (.inr hm)
      refine hn ⟨⟨hd, hda⟩, fun hdu => hno (.inl ?_)⟩
      rw [if_neg hda] at hdu
      exact (h.domain d u).1 hdu
    · rintro (hd | hd)
      · have hdu := (h.domain d u).2 hd
        refine ⟨mem_domains_of_owner hdu, fun hn => hn.2 ?_⟩
        rw [if_neg hn.1.2]
        exact hdu
      · exact ⟨hdomains d hd, fun hn => hn.1.2 hd⟩
  subst hrep
  constructor
  · intro he
    have hep : ∀ q, q ∈ s.plansMet o ↔ q = o ∨ q ∈ s.plansMet o := fun q => by
      rw [← hc.plans, ← hgp, ← he.plans]
    have heu : ∀ v, (v ∈ s.plansMet o ∨ v ∈ s.usersMet o) ↔ v = u ∨ v ∈ s.usersMet o := fun v => by
      rw [← hc.plans, ← hc.users, ← hgu, ← he.users, List.mem_append]
    have hed : ∀ d, (d ∈ s.plansMet o ∨ d ∈ s.domainsMet o) ↔
        d ∈ s.ownDomains u ∨ d ∈ s.domainsMet o := fun d => by
      rw [← hc.plans, ← hc.domains, ← hgd, ← he.domains, List.mem_append]
    exact ⟨(hep o).2 (.inl rfl), fun q hq => (heu q).1 (.inl hq), (heu u).2 (.inl rfl),
      fun q hq => (hed q).1 (.inl hq), fun d hd => (hed d).2 (.inl hd)⟩
  · rintro ⟨ho, h₁, h₂, h₃, h₄⟩
    constructor
    · intro q
      rw [hgp, hc.plans]
      constructor
      · exact .inr
      · rintro (rfl | hq)
        · exact ho
        · exact hq
    · intro v
      rw [hgu, List.mem_append, hc.plans, hc.users]
      constructor
      · exact fun hv => hv.elim (h₁ v) .inr
      · rintro (rfl | hv)
        · exact h₂
        · exact .inr hv
    · intro d
      rw [hgd, List.mem_append, hc.plans, hc.domains]
      constructor
      · exact fun hd => hd.elim (h₃ d) .inr
      · exact fun hd => hd.elim (h₄ d) .inr

end Lists

/-- The report of a user with several plans lacks the first one. -/
theorem Integrity.first_not_reported {s₁ : Store} {rep subs arr : Report} (h : Integrity s)
    (ho : o ∈ s.ownPlans u) (ho₂ : o₂ ∈ s.ownPlans u) (hc : s.Contents o arr)
    (hrun : Store.deleteSubPlans (o₂ :: os) (s.removePlan u o arr) subs = (s₁, .ok rep))
    (hsubs : subs.plans = arr.plans) : o ∉ s₁.plans ∧ o ∉ rep.plans := by
  -- Had the first plan been met below itself, the second one would be gone by now.
  have hno : o ∉ arr.plans := by
    intro hm
    have hm₂ : o₂ ∈ arr.plans := (hc.plans o₂).2 (h.met_together ho ho₂ ((hc.plans o).1 hm))
    have hgone : (s.removePlan u o arr).plans.get? o₂ = none :=
      Dict.get?_eq_none.2 fun hin => (mem_plans_removePlan.1 hin).2.2 hm₂
    rw [Store.deleteSubPlans, Store.deletePlan, hgone] at hrun
    cases hrun
  apply deleteSubPlans_unlisted hrun
  · exact fun hm => (mem_plans_removePlan.1 hm).2.1 rfl
  · intro v hv
    obtain ⟨-, hv, hne⟩ := (mem_ownPlans_removePlan s).1 hv
    exact hne ⟨h.owner_unique hv ho, rfl⟩
  · rw [hsubs]
    exact hno

theorem Integrity.deleteUser_report {rep : Report} (h : Integrity s)
    (hdel : s.deleteUser u = (s', .ok rep)) :
    ReportsExactly s s' rep ↔ (s.ownPlans u = [] ∧ s.ownDomains u = []) ∨ s.CyclicReport u := by
  obtain ⟨user, s₁, s₂, hU, hrun, hdrop, rfl⟩ := deleteUser_ok hdel
  have hu : u ∈ s.users := Dict.mem_of_get? hU
  rw [← ownPlans_of_get? hU] at hrun
  unfold CyclicReport
  cases hos : s.ownPlans u with
  | nil =>
    rw [hos] at hrun
    cases hrun
    rw [h.report_no_plans hu hdrop]
    simp
  | cons o os =>
    have ho : o ∈ s.ownPlans u := hos ▸ List.mem_cons_self
    have hown := h.owned o u ho
    rw [hos, Store.deleteSubPlans] at hrun
    rcases hdelo : s.deletePlan o with ⟨t, res⟩
    rw [hdelo] at hrun
    rcases deletePlan_cases hdelo with ⟨-, f, rfl⟩ | ⟨plan, owner, arr, hP, -, harr, rfl, rfl⟩
    · cases hrun
    · have hc := planContents_mem harr
      obtain rfl : u = plan.owner := Option.some.inj (hown.symm.trans (ownerOf_of_get? hP))
      cases os with
      | nil =>
        cases hrun
        refine (h.report_one_plan hu ho hc hdrop rfl).trans ?_
        simp
      | cons o₂ os =>
        have ho₂ : o₂ ∈ s.ownPlans plan.owner := by simp [hos]
        obtain ⟨hgone, hrep⟩ := h.first_not_reported ho ho₂ hc hrun rfl
        have hlost : o ∉ (s₂.eraseUser plan.owner).plans := by
          have hp := dropDomains_plans plan.owner s₁.domains.keys (s₁.detachUser plan.owner)
          rw [hdrop] at hp
          rwa [eraseUser, hp, detachUser, Dict.mem_mapVals]
        constructor
        · intro he
          exact (hrep ((he.plans o).2 ⟨mem_plans_of_ownerOf hown, hlost⟩)).elim
        · rintro (⟨hn, -⟩ | ⟨r, hr, -⟩)
          · cases hn
          · cases hr

/-- The report of a delete is exact only if it deletes a user without plans and domains, unless
the nesting of the plans is cyclic. -/
theorem deletion_report_exact (s : Store) (h : Integrity s) :
    (∀ p s' rep, s.deletePlan p = (s', .ok rep) →
      (ReportsExactly s s' rep ↔ p ∈ s.plansMet p)) ∧
    (∀ u s' rep, s.deleteUser u = (s', .ok rep) →
      (ReportsExactly s s' rep ↔
        (s.ownPlans u = [] ∧ s.ownDomains u = []) ∨ s.CyclicReport u)) ∧
    (∀ p, s.Shallow p → p ∉ s.plansMet p) := by
  refine ⟨fun p s' rep hdel => h.deletePlan_report hdel,
    fun u s' rep hdel => h.deleteUser_report hdel, fun p hs hp => ?_⟩
  obtain ⟨v, hv, hpv⟩ := hs.plansMet_iff.1 hp
  have hunder : v ∈ s.usersUnder [p] := mem_usersUnder_singleton.2 (hs.usersMet_iff.1 hv)
  exact hs.owner_not_under hpv hunder

def sampleReport : Report := { plans := [], users := ["bob"], domains := ["bob.org"] }

theorem deletePlan_sample : (installed.run sampleCalls).deletePlan "gold" =
    (((installed.run sampleCalls).deletePlan "gold").1, .ok sampleReport) :=
  Prod.ext rfl (by decide)

theorem deletion_report_exact_sample :
    ¬ ReportsExactly (installed.run sampleCalls) ((installed.run sampleCalls).deletePlan "gold").1
      sampleReport :=
  fun he =>
    have hall := deletion_report_exact _ integrity_sample
    hall.2.2 "gold" (shallow_sample "gold") ((hall.1 "gold" _ _ deletePlan_sample).1 he)

/-- The report of a deleted plan does not name the plan. -/
theorem deleted_plan_not_reported :
    ¬ ∀ s, Integrity s →
      (∀ p s' rep, s.deletePlan p = (s', .ok rep) → ReportsExactly s s' rep) ∧
      (∀ u s' rep, s.deleteUser u = (s', .ok rep) → ReportsExactly s s' rep) := by
  intro h
  have he := (h _ integrity_sample).1 "gold" _ _ deletePlan_sample
  exact absurd ((he.plans "gold").2 ⟨by decide, by decide⟩) List.not_mem_nil

end Store
end JXPanel

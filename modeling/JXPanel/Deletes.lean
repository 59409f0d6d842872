import JXPanel.Cascade

namespace JXPanel
set_option autoImplicit true

open Hierarchy

namespace Store
variable {s s' : Store}

/-- One pass of the loop over the domains drops the domain if it is the user's. -/
theorem dropDomainOf_spec (name d : String) (hfull : ∀ x, s.domains.get? x ≠ some none) :
    ∃ s', dropDomainOf name s d = (s', .ok ()) ∧ s'.plans = s.plans ∧ s'.users = s.users ∧
      s'.config = s.config ∧ ∀ x, s'.domains.get? x =
        if x = d ∧ s.domainOwner x = some name then none else s.domains.get? x := by
  unfold dropDomainOf
  cases hd : s.domains.get? d with
  | none =>
    refine ⟨s, rfl, rfl, rfl, rfl, fun x => ?_⟩
    split
    · rename_i hx
      rw [hx.1, hd]
    · rfl
  | some D =>
    cases D with
    | none => exact (hfull d hd).elim
    | some D =>
      have hown : s.domainOwner d = some D.owner := by simp [domainOwner, getDomain?, hd]
      by_cases hD : D.owner = name
      · refine ⟨s.eraseDomain d, by simp [hD], rfl, rfl, rfl, fun x => ?_⟩
        rw [eraseDomain, Dict.get?_erase]
        by_cases hx : x = d
        · simp [hx, hown, hD]
        · simp [hx]
      · refine ⟨s, by simp [hD], rfl, rfl, rfl, fun x => ?_⟩
        rw [if_neg]
        rintro ⟨rfl, hx⟩
        exact hD (Option.some.inj (hown.symm.trans hx))

theorem dropDomains_spec (name : String) (l : List String)
    (hfull : ∀ x, s.domains.get? x ≠ some none) :
    ∃ s', Collect.runAll (dropDomainOf name) l s = (s', .ok ()) ∧ s'.plans = s.plans ∧
      s'.users = s.users ∧ s'.config = s.config ∧ ∀ x, s'.domains.get? x =
        if x ∈ l ∧ s.domainOwner x = some name then none else s.domains.get? x := by
  induction l generalizing s with
  | nil => exact ⟨s, rfl, rfl, rfl, rfl, by simp⟩
  | cons d l ih =>
    obtain ⟨s₁, hrun₁, hp₁, hu₁, hc₁, hd₁⟩ := dropDomainOf_spec name d hfull
    have hfull₁ : ∀ x, s₁.domains.get? x ≠ some none := by
      intro x
      rw [hd₁]
      split
      · simp
      · exact hfull x
    obtain ⟨s₂, hrun₂, hp₂, hu₂, hc₂, hd₂⟩ := ih hfull₁
    refine ⟨s₂, ?_, hp₂.trans hp₁, hu₂.trans hu₁, hc₂.trans hc₁, fun x => ?_⟩
    · rw [Collect.runAll, hrun₁]
      exact hrun₂
    · have hown : s₁.domainOwner x =
          if x = d ∧ s.domainOwner x = some name then none else s.domainOwner x := by
        rw [domainOwner, getDomain?, hd₁]
        split <;> rfl
      rw [hd₂, hd₁, hown]
      by_cases hx : x = d
      · by_cases hn : s.domainOwner x = some name
        · simp [hx, hx ▸ hn]
        · simp [hx]
      · simp [hx]

/-- What `deleteUser` does after the loop over the sub-plans. -/
theorem deleteUser_rest (h : Integrity s) (hu : u ∈ s.users) (hplans : s.ownPlans u = []) :
    ∃ s₂, Collect.runAll (dropDomainOf u) s.domains.keys (s.detachUser u) = (s₂, .ok ()) ∧
      Integrity (s₂.eraseUser u) ∧ Removes s (s₂.eraseUser u) ∅ {u} {d | d ∈ s.ownDomains u}
        (fun _ P => { P with users := P.users.erase u }) (fun _ V => V) := by
  have hfull : ∀ x, (s.detachUser u).domains.get? x ≠ some none := by
    intro x hx
    have hsome := h.filled x (Dict.mem_of_get? hx)
    change s.domains.get? x = some none at hx
    rw [getDomain?, hx] at hsome
    exact Bool.false_ne_true hsome
  obtain ⟨s₂, hrun, hp, hus, hc, hd⟩ := dropDomains_spec u s.domains.keys hfull
  have hdomain : ∀ d, (s₂.eraseUser u).domains.get? d =
      if s.domainOwner d = some u then none else s.domains.get? d := by
    intro d
    refine (hd d).trans ?_
    change (if d ∈ s.domains.keys ∧ s.domainOwner d = some u then none else s.domains.get? d) = _
    by_cases hown : s.domainOwner d = some u
    · rw [if_pos hown]
      split
      · rfl
      · rename_i hn
        exact Dict.get?_eq_none.2 fun hm => hn ⟨hm, hown⟩
    · rw [if_neg fun hn => hown hn.2, if_neg hown]
  have hseats : ∀ v p, v ∈ (s₂.eraseUser u).seats p ↔ v ∈ s.seats p ∧ v ≠ u := by
    intro v p
    rw [← mem_seats_detachUser]
    simp only [seats, eraseUser, hp]
  have howner : ∀ p, (s₂.eraseUser u).ownerOf p = s.ownerOf p := by
    intro p
    rw [← ownerOf_detachUser s u p]
    simp only [ownerOf, eraseUser, hp]
  have huser : ∀ v, (s₂.eraseUser u).users.get? v = if v = u then none else s.users.get? v := by
    intro v
    rw [eraseUser, Dict.get?_erase, hus]
    rfl
  have hown' : ∀ v, (s₂.eraseUser u).ownPlans v = s.ownPlans v := by
    intro v
    rw [ownPlans, huser]
    by_cases hv : v = u
    · rw [if_pos hv, hv, hplans]
      rfl
    · rw [if_neg hv]
      rfl
  refine ⟨s₂, hrun, ⟨fun v p => ?_, fun p v hv hpv => ?_, fun p v hpv => ?_, fun d v => ?_,
    fun d hdm => ?_⟩, ⟨fun q hq => hq.elim, fun q _ => ?_, fun v hv => ?_, fun v hv => ?_, fun d hdu => ?_,
    fun d hdu => ?_, hc⟩⟩
  · rw [hseats, ← h.seat, planOf, huser]
    by_cases hv : v = u
    · simp [hv]
    · rw [if_neg hv]
      exact (and_iff_left hv).symm
  · rw [howner] at hpv
    rw [hown']
    exact h.plan p v hv hpv
  · rw [hown'] at hpv
    rw [howner]
    exact h.owned p v hpv
  · have hdv : (s₂.eraseUser u).domainOwner d =
        if s.domainOwner d = some u then none else s.domainOwner d := by
      rw [domainOwner, getDomain?, hdomain]
      split <;> rfl
    rw [hdv, ownDomains, huser]
    by_cases hv : v = u
    · subst hv
      by_cases hown : s.domainOwner d = some v <;> simp [hown]
    · rw [if_neg hv]
      refine Iff.trans ?_ (h.domain d v)
      split
      · rename_i hown
        rw [hown]
        constructor
        · intro hn
          cases hn
        · intro hn
          exact (hv (Option.some.inj hn).symm).elim
      · rfl
  · obtain ⟨x, hx⟩ := Dict.mem_iff.1 hdm
    rw [hdomain] at hx
    split at hx
    · cases hx
    · rename_i hn
      rw [getDomain?, hdomain, if_neg hn]
      exact h.filled d (Dict.mem_of_get? hx)
  · rw [eraseUser, hp, detachUser, Dict.get?_mapVals]
  · rw [huser, if_pos (Set.eq_of_mem_singleton hv)]
  · rw [huser, if_neg (show ¬v = u from hv), Option.map_id']
  · rw [hdomain, if_pos ((h.domain d u).2 hdu)]
  · rw [hdomain, if_neg fun hn => hdu ((h.domain d u).1 hn)]

theorem Integrity.deleteUser (h : Integrity s) (hs : ∀ o ∈ s.ownPlans u, s.Shallow o)
    (hU : s.users.get? u = some U) :
    ∃ s' rep, s.deleteUser u = (s', .ok rep) ∧ Integrity s' ∧
      Removes s s' (s.plansOwned ({u} ∪ s.usersUnder (s.ownPlans u)))
        ({u} ∪ s.usersUnder (s.ownPlans u))
        (s.domainsOwned ({u} ∪ s.usersUnder (s.ownPlans u)))
        (fun q P => if q = U.plan then { P with users := P.users.erase u } else P)
        (fun _ V => V) ∧
      ∀ q ∈ rep.plans, q ∈ s.plansOwned (s.usersUnder (s.ownPlans u)) := by
  have hnd := s.ownPlans_nodup u
  obtain ⟨s₁, rep, hrun, h₁, hrem₁, hrep⟩ := h.deleteSubPlans hs (u := u) (fun _ ho => ho) hnd
    { plans := [], users := [u], domains := [] }
  have hnot : u ∉ s.usersUnder (s.ownPlans u) := by
    rintro ⟨o, ho, q, hq, huq⟩
    exact (hs o ho).owner_not_under ho (mem_usersUnder_singleton.2 ⟨q, hq, huq⟩)
  have hU₁ : s₁.users.get? u =
      some { U with subPlans := U.subPlans.eraseAll (s.ownPlans u) } := by
    rw [hrem₁.users_kept u hnot, hU]
    simp
  have hplans₁ : s₁.ownPlans u = [] := by
    refine List.eq_nil_iff_forall_not_mem.2 fun q hq => ?_
    rw [ownPlans_of_get? hU₁] at hq
    obtain ⟨hn, hq⟩ := Dict.mem_eraseAll.1 (Dict.mem_keys.1 hq)
    exact hn (ownPlans_of_get? hU ▸ hq)
  have hdomains₁ : s₁.ownDomains u = s.ownDomains u := by
    rw [ownDomains_of_get? hU₁, ownDomains_of_get? hU]
  obtain ⟨s₂, hdrop, h₂, hrem₂⟩ := deleteUser_rest h₁ (Dict.mem_of_get? hU₁) hplans₁
  refine ⟨s₂.eraseUser u, rep, ?_, h₂, ?_, fun q hq => ?_⟩
  · rw [ownPlans_of_get? hU] at hrun
    simp only [Store.deleteUser, hU, hrun, hdrop]
  · refine (hrem₁.trans hrem₂).congr ?_ (Set.union_comm _ _) ?_ (fun q hq P hP => ?_)
      (fun v hv V _ => ?_)
    · ext q
      constructor
      · rintro ((hq | ⟨v, hv, hq⟩) | hq)
        · exact ⟨u, .inl rfl, hq⟩
        · exact ⟨v, .inr hv, hq⟩
        · exact hq.elim
      · rintro ⟨v, rfl | hv, hq⟩
        · exact .inl (.inl hq)
        · exact .inl (.inr ⟨v, hv, hq⟩)
    · rw [hdomains₁]
      ext d
      constructor
      · rintro (⟨v, hv, hd⟩ | hd)
        · exact ⟨v, .inr hv, hd⟩
        · exact ⟨u, .inl rfl, hd⟩
      · rintro ⟨v, rfl | hv, hd⟩
        · exact .inr hd
        · exact .inl ⟨v, hv, hd⟩
    · -- Only the plan that the user names lists him.
      split
      · rfl
      · rename_i hne
        have hmem : u ∉ P.users := fun hm => by
          have hseat : u ∈ s.seats q := seats_of_get? hP ▸ hm
          have hplan := (planOf_of_get? hU).symm.trans ((h.seat u q).2 hseat)
          exact hne (Option.some.inj hplan).symm
        rw [Dict.erase_of_not_mem hmem]
    · exact if_neg fun hvu => hv (.inr hvu)
  · rcases hrep q hq with hq | hq
    · exact absurd hq List.not_mem_nil
    · exact hq

theorem Integrity.deleteDomain (h : Integrity s) (hD : s.getDomain? d = some D) :
    s.deleteDomain d = ((s.eraseDomain d).detachDomain D.owner d, .ok ⟨[], [], [d]⟩) := by
  have howner : D.owner ∈ s.users := by
    have hd := (h.domain d D.owner).1 (by rw [domainOwner, hD]; rfl)
    obtain ⟨U, hU, -⟩ := mem_ownDomains.1 hd
    exact Dict.mem_of_get? hU
  obtain ⟨O, hO⟩ := Dict.mem_iff.1 howner
  simp only [Store.deleteDomain, hD, hO]
  rfl

theorem Integrity.detachDomain (h : Integrity s) (hd : s.domainOwner d = some o) :
    Integrity ((s.eraseDomain d).detachDomain o d) := by
  have hgone : ∀ x, ((s.eraseDomain d).detachDomain o d).domainOwner x =
      if x = d then none else s.domainOwner x := domainOwner_eraseDomain s d
  refine ⟨fun u p => ?_, fun p u hu hp => ?_, fun p u hp => ?_, fun x u => ?_, fun x hx => ?_⟩
  · rw [planOf_detachDomain]
    exact h.seat u p
  · rw [ownPlans_detachDomain]
    exact h.plan p u hu hp
  · rw [ownPlans_detachDomain] at hp
    exact h.owned p u hp
  · rw [hgone, mem_ownDomains_detachDomain]
    change _ ↔ x ∈ s.ownDomains u ∧ _
    rw [← h.domain]
    by_cases hx : x = d
    · subst hx
      rw [if_pos rfl, hd]
      constructor
      · intro hn
        cases hn
      · rintro ⟨hu, hn⟩
        exact (hn ⟨(Option.some.inj hu).symm, rfl⟩).elim
    · simp [hx]
  · obtain ⟨hne, hx⟩ := Dict.mem_erase.1 hx
    have hsome := h.filled x hx
    simp only [getDomain?, Store.detachDomain, modifyUser, eraseDomain] at hsome ⊢
    rwa [Dict.get?_erase_ne _ hne]

theorem removes_deleteDomain (d o : String) :
    Removes s ((s.eraseDomain d).detachDomain o d) ∅ ∅ {d} (fun _ P => P)
      (fun u U => if u = o then { U with domains := U.domains.erase d } else U) := by
  refine ⟨fun q hq => hq.elim, fun q _ => by rw [Option.map_id']; rfl, fun u hu => hu.elim, fun u _ => ?_, fun x hx => ?_,
    fun x hx => ?_, rfl⟩
  · simp only [Store.detachDomain, modifyUser, Dict.get?_modify]
    by_cases hu : u = o
    · simp only [if_pos hu]
      rfl
    · simp only [if_neg hu, Option.map_id']
      rfl
  · rw [Set.eq_of_mem_singleton hx]
    exact Dict.get?_erase_self _ _
  · exact Dict.get?_erase_ne _ hx

end Store
end JXPanel

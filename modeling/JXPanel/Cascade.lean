import JXPanel.Descent

namespace JXPanel
set_option autoImplicit true

open Hierarchy

namespace Store

/-- The users of these plans, the users of the plans that those users own, and so on. -/
def usersUnder (s : Store) (os : List String) : Set String :=
  {u | ∃ o ∈ os, ∃ q, Below s.subs o q ∧ u ∈ s.seats q}

def plansOwned (s : Store) (users : Set String) : Set String := {q | ∃ u ∈ users, q ∈ s.ownPlans u}

def domainsOwned (s : Store) (users : Set String) : Set String :=
  {d | ∃ u ∈ users, d ∈ s.ownDomains u}

/-- Exactly these records are gone, and of the others only what is said to be changed is. -/
structure Removes (s s' : Store) (plans users domains : Set String) (plan : String → Plan → Plan)
    (user : String → User → User) : Prop where
  plans_gone : ∀ q ∈ plans, s'.plans.get? q = none
  plans_kept : ∀ q, q ∉ plans → s'.plans.get? q = (s.plans.get? q).map (plan q)
  users_gone : ∀ u ∈ users, s'.users.get? u = none
  users_kept : ∀ u, u ∉ users → s'.users.get? u = (s.users.get? u).map (user u)
  domains_gone : ∀ d ∈ domains, s'.domains.get? d = none
  domains_kept : ∀ d, d ∉ domains → s'.domains.get? d = s.domains.get? d
  config : s'.config = s.config

variable {s s' : Store}

/-- A report of what hangs below a plan. -/
structure Subtree (s : Store) (name : String) (arr : Report) : Prop where
  users : ∀ u, u ∈ arr.users ↔ u ∈ s.usersUnder [name]
  plans : ∀ q, q ∈ arr.plans ↔ q ∈ s.plansOwned (s.usersUnder [name])
  domains : ∀ d, d ∈ arr.domains ↔ d ∈ s.domainsOwned (s.usersUnder [name])

theorem mem_usersUnder_singleton :
    u ∈ s.usersUnder [name] ↔ ∃ q, Below s.subs name q ∧ u ∈ s.seats q := by
  simp [usersUnder]

theorem Contents.subtree {arr : Report} (hc : s.Contents name arr) (hs : s.Shallow name) :
    s.Subtree name arr := by
  have hmet : ∀ u, u ∈ s.usersMet name ↔ u ∈ s.usersUnder [name] := fun u =>
    hs.usersMet_iff.trans mem_usersUnder_singleton.symm
  refine ⟨fun u => (hc.users u).trans (hmet u), fun q => ?_, fun d => ?_⟩
  · rw [hc.plans, hs.plansMet_iff]
    exact exists_congr fun u => and_congr_left fun _ => hmet u
  · rw [hc.domains, hs.domainsMet_iff]
    exact exists_congr fun u => and_congr_left fun _ => hmet u

/-- The plans below are the start and the plans of the users below. -/
theorem below_iff : Below s.subs name q ↔ q = name ∨ q ∈ s.plansOwned (s.usersUnder [name]) := by
  constructor
  · intro h
    rcases h.cases_tail with rfl | ⟨r, hr, hqr⟩
    · exact .inl rfl
    · obtain ⟨u, hu, hq⟩ := mem_subs.1 hqr
      exact .inr ⟨u, mem_usersUnder_singleton.2 ⟨r, hr, hu⟩, hq⟩
  · rintro (rfl | ⟨u, hu, hq⟩)
    · exact .refl
    · obtain ⟨r, hr, hur⟩ := mem_usersUnder_singleton.1 hu
      exact hr.tail (mem_subs.2 ⟨u, hur, hq⟩)

/-- The owner of a plan is not below it. -/
theorem Shallow.owner_not_under (hs : s.Shallow name) (ho : name ∈ s.ownPlans o) :
    o ∉ s.usersUnder [name] := by
  intro hmem
  obtain ⟨q, hq, hoq⟩ := mem_usersUnder_singleton.1 hmem
  have hcycle : Deep s.subs deepest q := deep_of_cycle (mem_subs.2 ⟨o, hoq, ho⟩) hq deepest
  exact hs (hcycle.of_below hq)

section Consistent
variable (h : Integrity s)
include h

theorem Integrity.seat_unique (hp : u ∈ s.seats p) (hq : u ∈ s.seats q) : p = q :=
  Option.some.inj (((h.seat u p).2 hp).symm.trans ((h.seat u q).2 hq))

theorem Integrity.owner_unique (hu : p ∈ s.ownPlans u) (hv : p ∈ s.ownPlans v) : u = v :=
  Option.some.inj ((h.owned p u hu).symm.trans (h.owned p v hv))

/-- A user is below a plan exactly when the plan that lists him is. -/
theorem Integrity.mem_usersUnder (hu : u ∈ s.seats p) :
    u ∈ s.usersUnder [name] ↔ Below s.subs name p := by
  rw [mem_usersUnder_singleton]
  constructor
  · rintro ⟨q, hq, huq⟩
    exact h.seat_unique hu huq ▸ hq
  · exact fun hp => ⟨p, hp, hu⟩

/-- Deleting a plan with all that hangs below it leaves no reference behind. -/
theorem Integrity.removePlan {arr : Report} (ho : s.ownerOf name = some o)
    (ht : s.Subtree name arr) : Integrity (s.removePlan o name arr) := by
  have hbelow : ∀ p, Below s.subs name p ↔ p = name ∨ p ∈ arr.plans := fun p => by
    rw [ht.plans, below_iff]
  refine ⟨fun u p => ?_, fun p u hu hown => ?_, fun p u hown => ?_, fun d u => ?_, fun d hd => ?_⟩
  · rw [planOf_removePlan, seats_removePlan]
    by_cases hseat : u ∈ s.seats p
    · have hiff : u ∈ arr.users ↔ p = name ∨ p ∈ arr.plans :=
        (ht.users u).trans ((h.mem_usersUnder hseat).trans (hbelow p))
      by_cases hu : u ∈ arr.users
      · rw [if_pos hu, if_pos (hiff.1 hu)]
        simp
      · rw [if_neg hu, if_neg fun hp => hu (hiff.2 hp)]
        exact h.seat u p
    · have hplan : s.planOf u ≠ some p := fun hp => hseat ((h.seat u p).1 hp)
      constructor
      · intro hp
        split at hp
        · cases hp
        · exact (hplan hp).elim
      · intro hu
        split at hu
        · exact absurd hu List.not_mem_nil
        · exact (hseat hu).elim
  · rw [ownerOf_removePlan] at hown
    split at hown
    · cases hown
    · rename_i hp
      have hlist := h.plan p u hu hown
      refine mem_ownPlans_removePlan s |>.2 ⟨fun hmem => hp (.inr ?_), hlist, fun hpn => hp (.inl hpn.2)⟩
      exact (ht.plans p).2 ⟨u, (ht.users u).1 hmem, hlist⟩
  · obtain ⟨hu, hlist, hne⟩ := (mem_ownPlans_removePlan s).1 hown
    have hpu := h.owned p u hlist
    rw [ownerOf_removePlan, if_neg]
    · exact hpu
    · rintro (rfl | hp)
      · exact hne ⟨Option.some.inj (hpu.symm.trans ho), rfl⟩
      · obtain ⟨v, hv, hpv⟩ := (ht.plans p).1 hp
        exact hu ((ht.users u).2 (h.owner_unique hlist hpv ▸ hv))
  · rw [domainOwner_removePlan, ownDomains_removePlan]
    by_cases hd : d ∈ s.ownDomains u
    · have hdu := (h.domain d u).2 hd
      have hiff : d ∈ arr.domains ↔ u ∈ arr.users := by
        rw [ht.domains, ht.users]
        constructor
        · rintro ⟨v, hv, hdv⟩
          exact Option.some.inj (((h.domain d v).2 hdv).symm.trans hdu) ▸ hv
        · exact fun hu => ⟨u, hu, hd⟩
      by_cases hu : u ∈ arr.users
      · rw [if_pos (hiff.2 hu), if_pos hu]
        simp
      · rw [if_neg fun hd => hu (hiff.1 hd), if_neg hu]
        exact h.domain d u
    · have hown : s.domainOwner d ≠ some u := fun hdu => hd ((h.domain d u).1 hdu)
      constructor
      · intro hdu
        split at hdu
        · cases hdu
        · exact (hown hdu).elim
      · intro hmem
        split at hmem
        · exact absurd hmem List.not_mem_nil
        · exact (hd hmem).elim
  · have hd' : d ∉ arr.domains ∧ d ∈ s.domains := by
      obtain ⟨x, hx⟩ := Dict.mem_iff.1 hd
      simp only [Store.removePlan, Dict.get?_eraseAll] at hx
      split at hx
      · cases hx
      · rename_i hn
        exact ⟨hn, Dict.mem_of_get? hx⟩
    rw [getDomain?_removePlan, if_neg hd'.1]
    exact h.filled d hd'.2

theorem Integrity.deletePlan (hs : s.Shallow name) (hp : s.ownerOf name = some o)
    (ho : o ∈ s.users) :
    ∃ arr, s.deletePlan name = (s.removePlan o name arr, .ok arr) ∧ s.Subtree name arr := by
  obtain ⟨P, hP, rfl⟩ := ownerOf_eq.1 hp
  obtain ⟨O, hO⟩ := Dict.mem_iff.1 ho
  obtain ⟨arr, harr⟩ := h.linked.planContents_total (Dict.mem_of_get? hP)
  refine ⟨arr, ?_, (planContents_mem harr).subtree hs⟩
  simp only [Store.deletePlan, hP, hO, harr]

end Consistent

theorem Subtree.removes {arr : Report} (ht : s.Subtree name arr) :
    Removes s (s.removePlan o name arr) ({name} ∪ s.plansOwned (s.usersUnder [name]))
      (s.usersUnder [name]) (s.domainsOwned (s.usersUnder [name])) (fun _ P => P)
      (fun u U => if u = o then { U with subPlans := U.subPlans.erase name } else U) := by
  have hplan : ∀ q, (s.removePlan o name arr).plans.get? q =
      if q = name ∨ q ∈ arr.plans then none else s.plans.get? q := by
    intro q
    simp only [removePlan, Dict.get?_eraseAll, Dict.get?_erase]
    by_cases hq : q ∈ arr.plans
    · simp [hq]
    · by_cases hn : q = name <;> simp [hq, hn]
  have hmem : ∀ q, q ∈ ({name} ∪ s.plansOwned (s.usersUnder [name]) : Set String) ↔
      q = name ∨ q ∈ arr.plans := fun q => by rw [ht.plans]; rfl
  refine ⟨fun q hq => ?_, fun q hq => ?_, fun u hu => ?_, fun u hu => ?_, fun d hd => ?_,
    fun d hd => ?_, rfl⟩
  · rw [hplan, if_pos ((hmem q).1 hq)]
  · rw [hplan, if_neg fun hn => hq ((hmem q).2 hn), Option.map_id']
  · rw [get?_users_removePlan, if_pos ((ht.users u).2 hu)]
  · rw [get?_users_removePlan, if_neg fun hn => hu ((ht.users u).1 hn)]
    by_cases hu : u = o
    · simp only [if_pos hu]
    · simp only [if_neg hu, Option.map_id']
  · simp only [removePlan, Dict.get?_eraseAll, if_pos ((ht.domains d).2 hd)]
  · simp only [removePlan, Dict.get?_eraseAll, if_neg fun hn => hd ((ht.domains d).1 hn)]

theorem Removes.trans {s₁ s₂ : Store} {A B C A' B' C' : Set String} {kp kp' ku ku'}
    (h : Removes s s₁ A B C kp ku) (h' : Removes s₁ s₂ A' B' C' kp' ku') :
    Removes s s₂ (A ∪ A') (B ∪ B') (C ∪ C') (fun q P => kp' q (kp q P))
      (fun u U => ku' u (ku u U)) := by
  refine ⟨fun q hq => ?_, fun q hq => ?_, fun u hu => ?_, fun u hu => ?_, fun d hd => ?_,
    fun d hd => ?_, h'.config.trans h.config⟩
  · by_cases hq' : q ∈ A'
    · exact h'.plans_gone q hq'
    · rw [h'.plans_kept q hq', h.plans_gone q (hq.resolve_right hq')]
      rfl
  · rw [h'.plans_kept q fun hn => hq (.inr hn), h.plans_kept q fun hn => hq (.inl hn),
      Option.map_map]
    rfl
  · by_cases hu' : u ∈ B'
    · exact h'.users_gone u hu'
    · rw [h'.users_kept u hu', h.users_gone u (hu.resolve_right hu')]
      rfl
  · rw [h'.users_kept u fun hn => hu (.inr hn), h.users_kept u fun hn => hu (.inl hn),
      Option.map_map]
    rfl
  · by_cases hd' : d ∈ C'
    · exact h'.domains_gone d hd'
    · rw [h'.domains_kept d hd', h.domains_gone d (hd.resolve_right hd')]
  · rw [h'.domains_kept d fun hn => hd (.inr hn), h.domains_kept d fun hn => hd (.inl hn)]

theorem Removes.congr {A B C A' B' C' : Set String} {kp kp' ku ku'}
    (h : Removes s s' A B C kp ku) (hA : A = A') (hB : B = B') (hC : C = C')
    (hkp : ∀ q, q ∉ A → ∀ P, s.plans.get? q = some P → kp q P = kp' q P)
    (hku : ∀ u, u ∉ B → ∀ U, s.users.get? u = some U → ku u U = ku' u U) :
    Removes s s' A' B' C' kp' ku' := by
  subst hA hB hC
  refine ⟨h.plans_gone, fun q hq => ?_, h.users_gone, fun u hu => ?_, h.domains_gone,
    h.domains_kept, h.config⟩
  · rw [h.plans_kept q hq]
    exact Option.map_congr fun P hP => hkp q hq P hP
  · rw [h.users_kept u hu]
    exact Option.map_congr fun U hU => hku u hu U hU

section SubPlans
variable {arr : Report}

theorem seats_removePlan_subset (p : String) : (s.removePlan u o arr).seats p ⊆ s.seats p := by
  rw [seats_removePlan]
  split
  · exact List.nil_subset _
  · exact fun _ hx => hx

theorem subs_removePlan_subset (p : String) : (s.removePlan u o arr).subs p ⊆ s.subs p := by
  intro q hq
  obtain ⟨v, hv, hqv⟩ := mem_subs.1 hq
  exact mem_subs.2 ⟨v, seats_removePlan_subset p hv, ((mem_ownPlans_removePlan s).1 hqv).2.1⟩

theorem Shallow.removePlan (hs : s.Shallow p) : (s.removePlan u o arr).Shallow p :=
  fun hd => hs (hd.mono subs_removePlan_subset)

theorem mem_usersUnder_cons :
    v ∈ s.usersUnder (o :: os) ↔ v ∈ s.usersUnder [o] ∨ v ∈ s.usersUnder os := by
  simp [usersUnder]

variable (h : Integrity s) (ht : s.Subtree o arr)
include h ht

/-- A way down either meets the deleted plan or is still there without it. -/
theorem Integrity.below_split (hq : Below s.subs r q) :
    Below s.subs o q ∨ Below (s.removePlan u o arr).subs r q := by
  induction hq with
  | refl => exact .inr .refl
  | @tail x y _ hstep ih =>
    by_cases hx : Below s.subs o x
    · exact .inl (hx.tail hstep)
    · obtain ⟨v, hv, hyv⟩ := mem_subs.1 hstep
      by_cases hy : y = o
      · exact .inl (hy ▸ .refl)
      · have hnx : ¬(x = o ∨ x ∈ arr.plans) := fun hn =>
          hx (below_iff.2 (hn.imp_right fun hm => (ht.plans x).1 hm))
        have hnv : v ∉ arr.users := fun hm =>
          hx ((h.mem_usersUnder hv).1 ((ht.users v).1 hm))
        refine .inr ((ih.resolve_left hx).tail (mem_subs.2 ⟨v, ?_, ?_⟩))
        · rw [seats_removePlan, if_neg hnx]
          exact hv
        · exact (mem_ownPlans_removePlan s).2 ⟨hnv, hyv, fun hn => hy hn.2⟩

theorem Integrity.not_removed (hv : v ∈ (s.removePlan u o arr).usersUnder os) :
    v ∉ arr.users := by
  obtain ⟨r, -, q, -, hvq⟩ := hv
  rw [seats_removePlan] at hvq
  split at hvq
  · exact absurd hvq List.not_mem_nil
  · rename_i hq
    intro hm
    have hbelow := (h.mem_usersUnder hvq).1 ((ht.users v).1 hm)
    exact hq ((below_iff.1 hbelow).imp_right fun hm => (ht.plans q).2 hm)

theorem Integrity.usersUnder_split :
    s.usersUnder (o :: os) = s.usersUnder [o] ∪ (s.removePlan u o arr).usersUnder os := by
  ext v
  rw [mem_usersUnder_cons, Set.mem_union]
  constructor
  · rintro (hv | ⟨r, hr, q, hq, hvq⟩)
    · exact .inl hv
    · by_cases hoq : Below s.subs o q
      · exact .inl ((h.mem_usersUnder hvq).2 hoq)
      · refine .inr ⟨r, hr, q, (h.below_split ht hq).resolve_left hoq, ?_⟩
        rw [seats_removePlan, if_neg]
        · exact hvq
        · exact fun hn => hoq (below_iff.2 (hn.imp_right fun hm => (ht.plans q).1 hm))
  · rintro (hv | ⟨r, hr, q, hq, hvq⟩)
    · exact .inl hv
    · exact .inr ⟨r, hr, q, hq.mono subs_removePlan_subset, seats_removePlan_subset q hvq⟩

theorem Integrity.plansOwned_split :
    ({q | q ∈ o :: os} ∪ s.plansOwned (s.usersUnder (o :: os)) : Set String) =
      ({o} ∪ s.plansOwned (s.usersUnder [o])) ∪ ({q | q ∈ os} ∪
        (s.removePlan u o arr).plansOwned ((s.removePlan u o arr).usersUnder os)) := by
  rw [h.usersUnder_split ht (u := u)]
  ext q
  constructor
  · rintro (hq | ⟨v, hv | hv, hqv⟩)
    · exact (List.mem_cons.1 hq).imp .inl .inl
    · exact .inl (.inr ⟨v, hv, hqv⟩)
    · by_cases hq : q = o
      · exact .inl (.inl hq)
      · exact .inr (.inr ⟨v, hv, (mem_ownPlans_removePlan s).2
          ⟨h.not_removed ht hv, hqv, fun hn => hq hn.2⟩⟩)
  · rintro ((hq | ⟨v, hv, hqv⟩) | (hq | ⟨v, hv, hqv⟩))
    · exact .inl (List.mem_cons.2 (.inl hq))
    · exact .inr ⟨v, .inl hv, hqv⟩
    · exact .inl (List.mem_cons.2 (.inr hq))
    · exact .inr ⟨v, .inr hv, ((mem_ownPlans_removePlan s).1 hqv).2.1⟩

theorem Integrity.domainsOwned_split :
    s.domainsOwned (s.usersUnder (o :: os)) = s.domainsOwned (s.usersUnder [o]) ∪
      (s.removePlan u o arr).domainsOwned ((s.removePlan u o arr).usersUnder os) := by
  rw [h.usersUnder_split ht (u := u)]
  have hkeep : ∀ v ∈ (s.removePlan u o arr).usersUnder os,
      (s.removePlan u o arr).ownDomains v = s.ownDomains v := fun v hv => by
    rw [ownDomains_removePlan, if_neg (h.not_removed ht hv)]
  ext d
  constructor
  · rintro ⟨v, hv | hv, hd⟩
    · exact .inl ⟨v, hv, hd⟩
    · exact .inr ⟨v, hv, hkeep v hv ▸ hd⟩
  · rintro (⟨v, hv, hd⟩ | ⟨v, hv, hd⟩)
    · exact ⟨v, .inl hv, hd⟩
    · exact ⟨v, .inr hv, hkeep v hv ▸ hd⟩

end SubPlans

/-- The loop over the sub-plans of a user deletes their subtrees one after the other. -/
theorem Integrity.deleteSubPlans {os : List String} (h : Integrity s) (hs : ∀ o ∈ os, s.Shallow o)
    (hos : ∀ o ∈ os, o ∈ s.ownPlans u) (hnd : os.Nodup) (subs : Report) :
    ∃ s' subs', Store.deleteSubPlans os s subs = (s', .ok subs') ∧ Integrity s' ∧
      Removes s s' ({q | q ∈ os} ∪ s.plansOwned (s.usersUnder os)) (s.usersUnder os)
        (s.domainsOwned (s.usersUnder os)) (fun _ P => P)
        (fun v V => if v = u then { V with subPlans := V.subPlans.eraseAll os } else V) ∧
      ∀ q ∈ subs'.plans, q ∈ subs.plans ∨ q ∈ s.plansOwned (s.usersUnder os) := by
  induction os generalizing s subs with
  | nil =>
    have hempty : s.usersUnder [] = ∅ := by simp [usersUnder]
    refine ⟨s, subs, rfl, h, ?_, fun q hq => .inl hq⟩
    rw [hempty]
    refine ⟨?_, fun q _ => by simp, ?_, fun v _ => ?_, ?_, fun d _ => rfl, rfl⟩
    · simp [plansOwned]
    · simp
    · cases s.users.get? v with
      | none => rfl
      | some V => by_cases hv : v = u <;> simp [hv, Dict.eraseAll]
    · simp [domainsOwned]
  | cons o os ih =>
    obtain ⟨hno, hnd⟩ := List.nodup_cons.1 hnd
    have ho := hos o List.mem_cons_self
    have hown := h.owned o u ho
    have hso := hs o List.mem_cons_self
    obtain ⟨arr, hdel, ht⟩ := h.deletePlan hso hown (mem_users_of_ownPlans ho)
    have hu : u ∉ arr.users := fun hm => hso.owner_not_under ho ((ht.users u).1 hm)
    have hos' : ∀ r ∈ os, r ∈ (s.removePlan u o arr).ownPlans u := fun r hr =>
      (mem_ownPlans_removePlan s).2
        ⟨hu, hos r (List.mem_cons_of_mem _ hr), fun hn => hno (hn.2 ▸ hr)⟩
    obtain ⟨s', subs', hrun, hint, hrem, hplans⟩ := ih (h.removePlan hown ht)
      (fun r hr => (hs r (List.mem_cons_of_mem _ hr)).removePlan) hos' hnd
      { plans := subs.plans ++ arr.plans, users := subs.plans ++ arr.plans ++ arr.users
        domains := subs.plans ++ arr.plans ++ arr.domains }
    refine ⟨s', subs', ?_, hint, ?_, fun q hq => ?_⟩
    · rw [Store.deleteSubPlans, hdel]
      exact hrun
    · refine (ht.removes.trans hrem).congr (h.plansOwned_split ht).symm
        (h.usersUnder_split ht).symm (h.domainsOwned_split ht).symm (fun _ _ _ _ => rfl)
        (fun v _ V _ => ?_)
      by_cases hv : v = u
      · simp only [if_pos hv]
        rfl
      · simp only [if_neg hv]
    · rw [h.usersUnder_split ht (u := u)]
      rcases hplans q hq with hq | ⟨v, hv, hqv⟩
      · rcases List.mem_append.1 hq with hq | hq
        · exact .inl hq
        · obtain ⟨v, hv, hqv⟩ := (ht.plans q).1 hq
          exact .inr ⟨v, .inl hv, hqv⟩
      · exact .inr ⟨v, .inr hv, ((mem_ownPlans_removePlan s).1 hqv).2.1⟩

end Store
end JXPanel

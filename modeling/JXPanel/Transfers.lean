import JXPanel.Growth

namespace JXPanel
set_option autoImplicit true

open Hierarchy

namespace Domain

theorem eq_of_fields {d d' : Domain} (hname : d.name = d'.name) (howner : d.owner = d'.owner)
    (hfields : d.fields = d'.fields) : d = d' := by
  cases d
  cases d'
  cases hname
  cases howner
  cases hfields
  rfl

theorem assign_fields (d : Domain) {es : List (String × JsVal)} (hkeys : ∀ e ∈ es, e.1 ∉ domainKeys) :
    (es.foldl (fun d e => d.assign e.1 e.2) d).name = d.name ∧
    (es.foldl (fun d e => d.assign e.1 e.2) d).owner = d.owner ∧
    (es.foldl (fun d e => d.assign e.1 e.2) d).fields = es.foldl (fun o e => o.set e.1 e.2) d.fields := by
  induction es generalizing d with
  | nil => exact ⟨rfl, rfl, rfl⟩
  | cons e es ih =>
    have hstep : d.assign e.1 e.2 =
        { d with fields := d.fields.set e.1 e.2, extra := extra_set d.extra (hkeys e List.mem_cons_self) } :=
      dif_neg (hkeys e List.mem_cons_self)
    rw [List.foldl_cons, List.foldl_cons, hstep]
    exact ih _ fun x hx => hkeys x (List.mem_cons_of_mem e hx)

theorem toObj_entries (d : Domain) :
    d.toObj.entries = ("name", .str d.name) :: ("owner", .str d.owner) :: d.fields.entries := by
  have hnew : ((((Dict.empty.set "name" (.str d.name)).set "owner" (.str d.owner) : Obj).entries ++
      d.fields.entries).map Prod.fst).Nodup := by
    change ("name" :: "owner" :: d.fields.keys).Nodup
    rw [List.nodup_cons, List.nodup_cons, List.mem_cons, not_or]
    refine ⟨⟨by decide, fun hm => ?_⟩, fun hm => ?_, d.fields.keys_nodup⟩
    · exact d.extra _ (Dict.mem_keys.1 hm) List.mem_cons_self
    · exact d.extra _ (Dict.mem_keys.1 hm) (List.mem_cons_of_mem _ List.mem_cons_self)
  exact Dict.entries_foldl_set hnew

/-- A record that is made from another one is that record, whoever is named as its owner. -/
theorem new_toObj (name owner : String) (d : Domain) : Domain.new name owner d.toObj = d := by
  have hkeys : ∀ e ∈ d.fields.entries, e.1 ∉ domainKeys :=
    fun e he => d.extra _ (Dict.mem_keys.1 (List.mem_map_of_mem he))
  change d.toObj.entries.foldl (fun d e => d.assign e.1 e.2) _ = d
  rw [toObj_entries, List.foldl_cons, List.foldl_cons]
  obtain ⟨hname, howner, hfields⟩ := assign_fields (((({ name, owner, fields := .empty, extra := extra_empty } :
    Domain).assign "name" (.str d.name)).assign "owner" (.str d.owner))) hkeys
  apply eq_of_fields
  · exact hname
  · exact howner
  · exact hfields.trans (Dict.ofList_entries d.fields)

end Domain

namespace Store
variable {s s' : Store} {m : Measure} {p name : String} {P : Plan} {D data : Domain}

def RoomUp (s : Store) (m : Measure) (p : String) : Prop := ∀ q ∈ climb s.parentUp s.fuel p, s.Room m q

section Checks
variable (hi : Integrity s) (hn : Named s) (hf : Forest s)
include hi hn hf

/-- The loop over the owners' plans finds nothing if all of them have room, and it does not throw. -/
theorem walkUp_total {n : Nat} (hP : s.plans.get? p = some P) (he : Ends s.parentUp (n + 1) p) :
    ∃ r, s.walkUp m n (s.users.get? P.owner) = .ok r ∧
      ((∀ q, s.parentUp p = some q → ∀ x ∈ climb s.parentUp n q, s.Room m x) → r = none) := by
  have hup := parentUp_of_get? hP
  cases hU : s.users.get? P.owner with
  | none => exact ⟨none, by cases n <;> rfl, fun _ => rfl⟩
  | some U =>
    rw [planOf_of_get? hU] at hup
    have hends := he _ hup
    induction n generalizing p P U with
    | zero => exact hends.elim
    | succ n ih =>
      have hseat := (hi.seat P.owner U.plan).1 (planOf_of_get? hU)
      obtain ⟨Q, hQ⟩ := Dict.mem_iff.1 (mem_plans_of_seat hseat)
      have hload := hi.linked.total_load hf.ranked m hQ
      rw [walkUp, if_neg (hn.user _ U hU).2.2, hQ]
      dsimp only
      rw [hload]
      cases hle : (m.limit Q).le (.ofNat (s.load m U.plan)) with
      | true =>
        refine ⟨_, if_pos hle, fun hroom => ?_⟩
        obtain ⟨Q', t, hQ', ht, hfree⟩ := hroom _ hup U.plan List.mem_cons_self
        obtain rfl := Option.some.inj (hQ.symm.trans hQ')
        rw [hload] at ht
        cases ht
        exact absurd (hle.symm.trans hfree) (by decide)
      | false =>
        have hgo : (do
            let count ← (Except.ok (s.load m U.plan) : Js Nat)
            if (m.limit Q).le (.ofNat count) then return some ("PlanParentCannotAddMore|" ++ m.kind)
            if Q.owner = "" then return none
            s.walkUp m n (s.users.get? Q.owner)) = s.walkUp m n (s.users.get? Q.owner) := by
          change (if (m.limit Q).le (.ofNat (s.load m U.plan)) = true then _ else _) = _
          rw [hle, if_neg Bool.false_ne_true]
          exact if_neg (hn.plan _ Q hQ).2.2
        rw [hgo]
        cases hV : s.users.get? Q.owner with
        | none => exact ⟨none, by cases n <;> rfl, fun _ => rfl⟩
        | some V =>
          have hupQ : s.parentUp U.plan = some V.plan := (parentUp_of_get? hQ).trans (planOf_of_get? hV)
          obtain ⟨r, hr, hnone⟩ := ih hQ hends V hupQ hV (hends _ hupQ)
          refine ⟨r, hr, fun hroom => hnone fun q hq x hx => ?_⟩
          apply hroom _ hup x
          rw [climb, hq]
          exact List.mem_cons_of_mem _ hx

/-- The check of a count comes to an answer, which is no refusal just when all plans have room. -/
theorem checkTotal_total (hP : s.plans.get? p = some P) :
    ∃ r, s.checkTotal m P = .ok r ∧ (r = none ↔ s.RoomUp m p) := by
  have hends := hf.climbs.ends p
  have hload := hi.linked.total_load hf.ranked m hP
  have hok : s.checkTotal m P = .ok none → s.RoomUp m p := by
    intro hc q hq
    exact (hn.checkTotal_ok hP hc).2 q (climb_subset (Nat.le_succ _) p hq)
  cases hle : (m.limit P).le (.ofNat (s.load m p)) with
  | true =>
    have hcheck : s.checkTotal m P = .ok (some ("PlanCannotAddMore|" ++ m.kind ++ "|" ++ (m.limit P).toKey)) := by
      rw [checkTotal, hload]
      exact if_pos hle
    refine ⟨_, hcheck, iff_of_false (fun he => by cases he) fun hroom => ?_⟩
    obtain ⟨P', t, hP', ht, hfree⟩ := hroom p List.mem_cons_self
    obtain rfl := Option.some.inj (hP.symm.trans hP')
    rw [hload] at ht
    cases ht
    exact absurd (hle.symm.trans hfree) (by decide)
  | false =>
    have hcheck : s.checkTotal m P = s.walkUp m s.fuel (s.users.get? P.owner) := by
      rw [checkTotal, hload]
      change (if (m.limit P).le (.ofNat (s.load m p)) = true then _ else _) = _
      rw [hle]
      exact if_neg Bool.false_ne_true
    obtain ⟨r, hr, hnone⟩ := walkUp_total hi hn hf (m := m) hP (hends.mono (Nat.le_succ _))
    refine ⟨r, hcheck.trans hr, fun he => hok (by rw [hcheck, hr, he]), fun hroom => hnone fun q hq x hx => ?_⟩
    apply hroom x
    rw [← hends.climb_eq (Nat.le_succ _), climb, hq]
    exact List.mem_cons_of_mem _ hx

theorem checkAddDomain_total (hP : s.plans.get? p = some P) :
    ∃ r, s.checkAddDomain P = .ok r ∧ (r = none ↔ P.suspended.truthy = false ∧ s.RoomUp domainMeasure p) := by
  cases hsus : P.suspended.truthy with
  | true =>
    refine ⟨_, if_pos hsus, iff_of_false (fun he => by cases he) fun h => ?_⟩
    exact absurd h.1 (by decide)
  | false =>
    obtain ⟨r, hr, hiff⟩ := checkTotal_total hi hn hf (m := domainMeasure) hP
    refine ⟨r, ?_, hiff.trans ⟨fun hroom => ⟨rfl, hroom⟩, fun hall => hall.2⟩⟩
    rw [checkAddDomain, hsus, if_neg Bool.false_ne_true]
    exact hr

end Checks

/-- The domains of the user are counted in the total of the plan. -/
def CountsOf (s : Store) (q o : String) : Prop := ∃ x, s.planOf o = some x ∧ x ∈ descend s.activeSubs s.fuel q

def Held (s : Store) (m : Measure) (q : String) : Prop :=
  ∃ Q t, s.plans.get? q = some Q ∧ s.total m s.fuel Q = .ok t ∧ (m.limit Q).lt (.ofNat t) = false

/-- A domain of a user fits in with another one: each plan above that one has room, or counts the domain
already. -/
def FitsWith (s : Store) (o w : String) : Prop :=
  ∃ W P, s.users.get? w = some W ∧ s.plans.get? W.plan = some P ∧ P.suspended.truthy = false ∧
    ∀ q ∈ climb s.parentUp s.fuel W.plan, s.Room domainMeasure q ∨ (s.CountsOf q o ∧ s.Held domainMeasure q)

/-- The domain is a record of its new owner and listed by him alone, and nothing else is changed. -/
structure Moved (s s' : Store) (name o : String) (data : Domain) : Prop where
  domains : s'.domains = s.domains.set name (some data)
  users : ∀ v, s'.users.get? v = (s.users.get? v).map fun U =>
    { U with domains := if v = data.owner then U.domains.set name () else if v = o then U.domains.erase name
        else U.domains }
  plans : s'.plans = s.plans
  config : s'.config = s.config
  listed : ∀ v, name ∈ s'.ownDomains v ↔ v = data.owner

/-- What the update of a domain should be: all of it or nothing, and no refusal of a domain that fits. -/
structure MovesAtomically (s : Store) (name : String) (D data : Domain) : Prop where
  refused : (s.updateDomain name data).2 ≠ .ok none → (s.updateDomain name data).1 = s
  moved : (s.updateDomain name data).2 = .ok none → Moved s (s.updateDomain name data).1 name D.owner data
  fits : data.owner ≠ D.owner → s.FitsWith D.owner data.owner → (s.updateDomain name data).2 = .ok none

theorem setDomain_none_ne (hD : s.getDomain? name = some D) : s.setDomain name none ≠ s := by
  intro he
  have hget := congrArg (fun t => t.getDomain? name) he
  rw [getDomain?, setDomain, Dict.get?_set_self] at hget
  rw [hD] at hget
  cases hget

theorem setDomain_back (hD : s.getDomain? name = some D) : (s.setDomain name none).setDomain name (some D) = s := by
  have hget : s.domains.get? name = some (some D) := by
    rw [getDomain?] at hD
    exact Option.join_eq_some_iff.1 hD
  rw [setDomain, setDomain, Dict.set_set, Dict.set_get? hget]

section Moves
variable (hi : Integrity s) (hn : Named s) (hf : Forest s) (hD : s.getDomain? name = some D)
include hi hn hD

theorem owner_of_domain : ∃ U, s.users.get? D.owner = some U ∧ U.name = D.owner ∧ name ∈ U.domains := by
  have howner : s.domainOwner name = some D.owner := by
    rw [domainOwner, hD]
    rfl
  obtain ⟨U, hU, hmem⟩ := mem_ownDomains.1 ((hi.domain name D.owner).1 howner)
  exact ⟨U, hU, (hn.user _ U hU).1, hmem⟩

/-- A user who is not there is found missing only when the place of the domain is already empty. -/
theorem updateDomain_nobody (hno : data.owner ∉ s.users) :
    ∃ f, s.updateDomain name data = (s.setDomain name none, .error f) := by
  obtain ⟨U, hU, hname, -⟩ := owner_of_domain hi hn hD
  have hne : data.owner ≠ U.name := by
    intro he
    rw [he, hname] at hno
    exact hno (Dict.mem_of_get? hU)
  have hfree : ¬((s.setDomain name none).getDomain? name).isSome = true := by
    rw [getDomain?, setDomain, Dict.get?_set_self]
    exact Bool.false_ne_true
  have hadd : (s.setDomain name none).addDomain data.owner name data.toObj =
      (s.setDomain name none, .error (.thrown (data.owner ++ " user not found!"))) := by
    rw [addDomain, if_neg hfree]
    have hnone : (s.setDomain name none).users.get? data.owner = none := Dict.get?_eq_none.2 hno
    rw [hnone]
  exact ⟨_, updateDomain_moved hD hU hne hadd⟩

/-- With the owner he has, the record is replaced. -/
theorem updateDomain_kept (heq : data.owner = D.owner) :
    s.updateDomain name data = (s.setDomain name (some data), .ok none) := by
  obtain ⟨U, hU, hname, -⟩ := owner_of_domain hi hn hD
  rw [updateDomain_same hD hU (heq.trans hname.symm), Domain.new_toObj]

include hf

/-- A user who is there is asked whether his plans have room, the domain being counted where it was. -/
theorem updateDomain_other {W : User} (hW : s.users.get? data.owner = some W) (hne : data.owner ≠ D.owner) :
    (s.updateDomain name data = ((s.attachDomain data.owner name data).detachDomain D.owner name, .ok none) ∧
        (∃ P, s.plans.get? W.plan = some P ∧ P.suspended.truthy = false) ∧ s.RoomUp domainMeasure W.plan) ∨
      ∃ res P, s.updateDomain name data = (s, .ok (some res)) ∧ s.plans.get? W.plan = some P ∧
        ¬(P.suspended.truthy = false ∧ s.RoomUp domainMeasure W.plan) := by
  obtain ⟨U, hU, hname, -⟩ := owner_of_domain hi hn hD
  obtain ⟨P, hP⟩ := Dict.mem_iff.1 (mem_plans_of_seat ((hi.seat _ W.plan).1 (planOf_of_get? hW)))
  obtain ⟨r, hr, hroom⟩ := checkAddDomain_total hi hn hf hP
  have hfree : ¬((s.setDomain name none).getDomain? name).isSome = true := by
    rw [getDomain?, setDomain, Dict.get?_set_self]
    exact Bool.false_ne_true
  have hadd : (s.setDomain name none).addDomain data.owner name data.toObj =
      (s.setDomain name none).guarded (.ok r)
        ((s.setDomain name none).attachDomain data.owner name data, .ok none) := by
    have hW' : (s.setDomain name none).users.get? data.owner = some W := hW
    have hP' : (s.setDomain name none).plans.get? W.plan = some P := hP
    have hcheck : (s.setDomain name none).checkAddDomain P = .ok r :=
      (checkAddDomain_congr (show (s.setDomain name none).users = s.users from rfl) rfl P).trans hr
    rw [addDomain, if_neg hfree, hW']
    dsimp only
    rw [hP']
    dsimp only
    rw [hcheck, Domain.new_toObj]
    rfl
  rw [← hname] at hne
  cases r with
  | none =>
    left
    refine ⟨?_, ⟨P, hP, (hroom.1 rfl).1⟩, (hroom.1 rfl).2⟩
    rw [updateDomain_moved hD hU hne hadd]
    have hset : (s.setDomain name none).attachDomain data.owner name data = s.attachDomain data.owner name data := by
      simp only [attachDomain, setDomain, modifyUser, Dict.set_set]
    dsimp only
    rw [hset]
  | some res =>
    right
    refine ⟨res, P, ?_, hP, fun hall => by cases hroom.2 hall⟩
    rw [updateDomain_moved hD hU hne hadd]
    dsimp only
    rw [setDomain_back hD]

end Moves

/-- The record and both lists, when a domain changes hands. -/
theorem moved_attached (hi : Integrity s) (hD : s.getDomain? name = some D) {W : User}
    (hW : s.users.get? data.owner = some W) (hne : data.owner ≠ D.owner) :
    Moved s ((s.attachDomain data.owner name data).detachDomain D.owner name) name D.owner data := by
  have husers : ∀ v, ((s.attachDomain data.owner name data).detachDomain D.owner name).users.get? v =
      (s.users.get? v).map fun U =>
        { U with domains := if v = data.owner then U.domains.set name () else if v = D.owner then U.domains.erase name
            else U.domains } := by
    intro v
    rw [detachDomain, modifyUser, Dict.get?_modify, get?_users_attachDomain hW]
    by_cases hv : v = data.owner
    · rw [if_neg (fun he => hne (hv.symm.trans he)), if_pos hv, hv, hW, Option.map_some, if_pos rfl]
    · by_cases ho : v = D.owner
      · rw [if_pos ho, if_neg hv]
        simp only [if_neg hv, if_pos ho]
      · rw [if_neg ho, if_neg hv]
        simp only [if_neg hv, if_neg ho]
        exact Option.map_id'.symm
  refine ⟨rfl, husers, rfl, rfl, fun v => ?_⟩
  rw [mem_ownDomains]
  have hold : ∀ U, s.users.get? v = some U → name ∈ U.domains → v = D.owner := by
    intro U hU hmem
    have howner := (hi.domain name v).2 (mem_ownDomains.2 ⟨U, hU, hmem⟩)
    rw [domainOwner, hD] at howner
    exact (Option.some.inj howner).symm
  constructor
  · rintro ⟨U', hU', hmem⟩
    rw [husers v] at hU'
    obtain ⟨U, hU, rfl⟩ := Option.map_eq_some_iff.1 hU'
    by_cases hv : v = data.owner
    · exact hv
    · by_cases ho : v = D.owner
      · simp only [if_neg hv, if_pos ho] at hmem
        exact absurd rfl (Dict.mem_erase.1 hmem).1
      · simp only [if_neg hv, if_neg ho] at hmem
        exact absurd (hold U hU hmem) ho
  · intro hv
    subst hv
    refine ⟨_, (husers _).trans (by rw [hW]; rfl), ?_⟩
    dsimp only
    rw [if_pos rfl]
    exact Dict.mem_set.2 (.inl rfl)

/-- The record alone, when the domain stays with its owner. -/
theorem moved_kept (hi : Integrity s) (hn : Named s) (hD : s.getDomain? name = some D) (heq : data.owner = D.owner) :
    Moved s (s.setDomain name (some data)) name D.owner data := by
  obtain ⟨U, hU, -, hmem⟩ := owner_of_domain hi hn hD
  refine ⟨rfl, fun v => ?_, rfl, rfl, fun v => ?_⟩
  · rw [heq]
    by_cases hv : v = D.owner
    · subst hv
      have hget : U.domains.get? name = some () := by
        obtain ⟨x, hx⟩ := Dict.mem_iff.1 hmem
        exact hx
      change s.users.get? D.owner = _
      rw [hU, Option.map_some, if_pos rfl, Dict.set_get? hget]
    · simp only [if_neg hv]
      exact Option.map_id'.symm
  · change name ∈ s.ownDomains v ↔ v = data.owner
    rw [← hi.domain, domainOwner, hD, heq]
    exact ⟨fun he => (Option.some.inj he).symm, fun he => congrArg some he.symm⟩

/-- The update is all or nothing just when the new owner is there and no plan above him is full that counts
the domain already. -/
theorem updateDomain_atomic_iff (hi : Integrity s) (hn : Named s) (hf : Forest s) (hD : s.getDomain? name = some D)
    (data : Domain) :
    s.MovesAtomically name D data ↔ data.owner ∈ s.users ∧
      (data.owner ≠ D.owner → s.FitsWith D.owner data.owner →
        ∀ W, s.users.get? data.owner = some W → s.RoomUp domainMeasure W.plan) := by
  by_cases hthere : data.owner ∈ s.users
  · obtain ⟨W, hW⟩ := Dict.mem_iff.1 hthere
    by_cases heq : data.owner = D.owner
    · have hkept := updateDomain_kept hi hn hD heq
      refine iff_of_true ⟨fun hno => ?_, fun _ => ?_, fun hne => absurd heq hne⟩ ⟨hthere, fun hne => absurd heq hne⟩
      · rw [hkept] at hno
        exact absurd rfl hno
      · rw [hkept]
        exact moved_kept hi hn hD heq
    · rcases updateDomain_other hi hn hf hD hW heq with ⟨hres, -, hroom⟩ | ⟨res, P, hres, hP, hfull⟩
      · have hsame : ∀ W', s.users.get? data.owner = some W' → s.RoomUp domainMeasure W'.plan := by
          intro W' hW'
          obtain rfl := Option.some.inj (hW.symm.trans hW')
          exact hroom
        refine iff_of_true ⟨fun hno => ?_, fun _ => ?_, fun _ _ => ?_⟩ ⟨hthere, fun _ _ => hsame⟩
        · rw [hres] at hno
          exact absurd rfl hno
        · rw [hres]
          exact moved_attached hi hD hW heq
        · rw [hres]
      · constructor
        · intro hatomic
          refine ⟨hthere, fun _ hfits => ?_⟩
          have hok := hatomic.fits heq hfits
          rw [hres] at hok
          cases hok
        · intro ⟨_, hroom⟩
          refine ⟨fun _ => ?_, fun hok => ?_, fun hne hfits => ?_⟩
          · rw [hres]
          · rw [hres] at hok
            cases hok
          · -- a plan that fits with its quotas has room by assumption, and is refused nevertheless
            have hup := hroom hne hfits W hW
            obtain ⟨W', P', hW', hP', hsus, -⟩ := hfits
            obtain rfl := Option.some.inj (hW.symm.trans hW')
            obtain rfl := Option.some.inj (hP.symm.trans hP')
            exact absurd ⟨hsus, hup⟩ hfull
  · refine iff_of_false (fun hatomic => ?_) fun hall => hthere hall.1
    obtain ⟨f, hres⟩ := updateDomain_nobody hi hn hD hthere
    have hsame := hatomic.refused (by rw [hres]; exact fun he => by cases he)
    rw [hres] at hsame
    exact setDomain_none_ne hD hsame

/-- Bob and eve are users of gold, and bob has a domain. -/
def twoUserCalls : List Call :=
  [.addUser unlimitedPlanName "ann" .empty, .addPlan (some "ann") "gold" (planOpts 5 2),
    .addUser "gold" "bob" .empty, .addUser "gold" "eve" .empty, .addDomain "bob" "bob.org" .empty]

theorem reached_twoUserCalls : Reached (fun _ c => Adds c) (installed.run twoUserCalls) := by
  apply Runs.Reached.start.run
  refine ⟨⟨by decide, by decide, by decide⟩, ⟨by decide, by decide, by decide, fun k hk _ => ?_⟩,
    ⟨by decide, by decide, by decide⟩, ⟨by decide, by decide, by decide⟩, show PlainOpts .empty by decide, trivial⟩
  cases hk with
  | head => exact ⟨5, rfl⟩
  | tail _ hk =>
    cases List.mem_singleton.1 hk
    exact ⟨2, rfl⟩

/-- The domain of bob under another owner. -/
def bobOrgOf (owner : String) : Domain := { name := "bob.org", owner, fields := .empty, extra := extra_empty }

/-- `Room` as a test. -/
def hasRoom (s : Store) (m : Measure) (q : String) : Bool :=
  ((s.plans.get? q).map fun Q => match s.total m s.fuel Q with
    | .ok t => !(m.limit Q).le (.ofNat t)
    | .error _ => false).getD false

theorem room_of_hasRoom (h : s.hasRoom m p = true) : s.Room m p := by
  unfold hasRoom at h
  cases hQ : s.plans.get? p with
  | none =>
    rw [hQ] at h
    cases h
  | some Q =>
    rw [hQ, Option.map_some, Option.getD_some] at h
    cases ht : s.total m s.fuel Q with
    | error f =>
      rw [ht] at h
      cases h
    | ok t =>
      rw [ht] at h
      rw [Bool.not_eq_true'] at h
      exact ⟨Q, t, hQ, ht, h⟩

theorem updateDomain_atomic_sample :
    ∃ D, (installed.run twoUserCalls).getDomain? "bob.org" = some D ∧
      (installed.run twoUserCalls).MovesAtomically "bob.org" D (bobOrgOf "eve") := by
  have hc := consistent_of_adds reached_twoUserCalls
  obtain ⟨D, hD, -⟩ := Option.map_eq_some_iff.1
    (show ((installed.run twoUserCalls).getDomain? "bob.org").map Domain.owner = some "bob" by decide +kernel)
  refine ⟨D, hD, (updateDomain_atomic_iff hc.integrity hc.sound.named hc.forest hD (bobOrgOf "eve")).2
    ⟨by decide +kernel, fun _ _ W hW => ?_⟩⟩
  have hplan : ((installed.run twoUserCalls).users.get? "eve").map User.plan = some "gold" := by decide +kernel
  rw [show (installed.run twoUserCalls).users.get? "eve" = some W from hW] at hplan
  rw [show W.plan = "gold" from Option.some.inj hplan]
  have hall : ∀ q ∈ climb (installed.run twoUserCalls).parentUp (installed.run twoUserCalls).fuel "gold",
      (installed.run twoUserCalls).hasRoom domainMeasure q = true := by decide +kernel
  exact fun q hq => room_of_hasRoom (hall q hq)

/-- A domain that is given to nobody is no longer there. -/
theorem domain_blanked : ¬∀ (s : Store) (name : String) (D data : Domain), Consistent s →
    s.getDomain? name = some D → s.MovesAtomically name D data := by
  intro h
  have hc := consistent_of_adds reached_twoUserCalls
  obtain ⟨D, hD, -⟩ := Option.map_eq_some_iff.1
    (show ((installed.run twoUserCalls).getDomain? "bob.org").map Domain.owner = some "bob" by decide +kernel)
  have hatomic := h _ _ D (bobOrgOf "zoe") hc hD
  obtain ⟨f, hres⟩ := updateDomain_nobody hc.integrity hc.sound.named hD
    (show (bobOrgOf "zoe").owner ∉ (installed.run twoUserCalls).users by decide +kernel)
  have hsame := hatomic.refused (by rw [hres]; exact fun he => by cases he)
  rw [hres] at hsame
  exact setDomain_none_ne hD hsame

end Store
end JXPanel

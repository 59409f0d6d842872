import JXPanel.Durable
import JXPanel.PlanUpdates

namespace JXPanel
set_option autoImplicit true

open Hierarchy

section Settled
variable {v w : JsVal} {o : Obj} {P : Plan} {U : User} {D : Domain} {n : String}

/-- What is read again has a form in JSON. -/
theorem JsVal.Distinct.settled_storable (h : v.Distinct) (hw : v.settled = some w) : w.Storable := by
  induction h generalizing w with
  | undefined => cases hw
  | null =>
    cases hw
    exact .null
  | bool b =>
    cases hw
    exact .bool b
  | num n =>
    cases n with
    | int n =>
      cases hw
      exact .int n
    | nan =>
      cases hw
      exact .null
    | posInf =>
      cases hw
      exact .null
    | negInf =>
      cases hw
      exact .null
  | str s =>
    cases hw
    exact .str s
  | arr l _ ih =>
    cases hw
    rw [settledItems_eq]
    refine .arr _ fun x hx => ?_
    obtain ⟨v, hv, rfl⟩ := List.mem_map.1 hx
    cases hsettled : v.settled with
    | none => exact .null
    | some y => exact ih v hv hsettled
  | obj fs hkeys _ ih =>
    cases hw
    refine .obj _ (reread ⟨fs, hkeys⟩).nodup fun f hf => ?_
    rw [settledFields_eq] at hf
    obtain ⟨f', hf', he⟩ := List.mem_filterMap.1 hf
    obtain ⟨y, hy, rfl⟩ := Option.map_eq_some_iff.1 he
    exact ih f' hf' hy

theorem JsVal.Distinct.settle (h : (JsVal.obj o.entries).Distinct) : (JsVal.obj (reread o).entries).Storable :=
  h.settled_storable (settled_entries o)

theorem JsVal.Distinct.settled_lasts (h : v.Distinct) : (v.settled.getD .undefined).Lasts := by
  cases hv : v.settled with
  | none => exact .inl rfl
  | some w => exact .inr (h.settled_storable hv)

theorem JsVal.Distinct.settled_or (h : v.Distinct) (hw : w.Storable) : (v.settled.getD w).Storable := by
  cases hv : v.settled with
  | none => exact hw
  | some x => exact h.settled_storable hv

theorem Plan.durable_settle (h : (JsVal.obj P.toObj.entries).Distinct) :
    (if n = unlimitedPlanName then P.settle.permitted else P.settle).Durable n := by
  have hvalues : ∀ k v, P.toObj.get? k = some v → v.Distinct := fun k v hv => h.of_mem (k, v) (Dict.get?_eq_some.1 hv)
  have hfields : (JsVal.obj P.fields.entries).Distinct :=
    .obj _ P.fields.nodup fun f hf => h.of_mem f (List.mem_append_right _ hf)
  have hother : ∀ Q : Plan, SameOwn P.settle Q → (∀ k v, Q.fields.get? k = some v → v.Storable) →
      (n = unlimitedPlanName → ∀ k ∈ permissions, Q.fields.get? k = some (.bool true)) → Q.Durable n := by
    intro Q hQ hQfields hpermitted
    refine ⟨?_, ?_, ?_, ?_, ?_, ?_, .of_entries hQfields, hpermitted⟩
    · rw [← hQ.suspended]
      exact (hvalues "suspended" _ rfl).settled_or (.bool false)
    · rw [← hQ.maxDomainCount]
      exact (hvalues "maxDomainCount" _ rfl).settled_lasts
    · rw [← hQ.maxUserCount]
      exact (hvalues "maxUserCount" _ rfl).settled_lasts
    · rw [← hQ.canCreatePlan]
      exact (hvalues "canCreatePlan" _ rfl).settled_lasts
    · rw [← hQ.canCreateUser]
      exact (hvalues "canCreateUser" _ rfl).settled_lasts
    · rw [← hQ.planMaximums]
      exact JsVal.Distinct.settle (hvalues "planMaximums" _ rfl)
  have hsettled : ∀ k v, P.settle.fields.get? k = some v → v.Storable := fun k v hv => hfields.settle.get? hv
  split
  · refine hother _ ⟨rfl, rfl, rfl, rfl, rfl, rfl⟩ (fun k v hv => ?_) fun _ k hk => by rw [get?_permitted, if_pos hk]
    rw [get?_permitted] at hv
    split at hv
    · cases hv
      exact .bool true
    · exact hsettled k v hv
  · next hn => exact hother _ ⟨rfl, rfl, rfl, rfl, rfl, rfl⟩ hsettled fun he => absurd he hn

theorem User.durable_settle (h : (JsVal.obj U.toObj.entries).Distinct) : U.settle.Durable := by
  have hsuspended : U.suspended.Distinct :=
    h.of_mem ("suspended", U.suspended) (Dict.get?_eq_some.1 (show U.toObj.get? "suspended" = _ from rfl))
  refine ⟨hsuspended.settled_or (.bool false), ?_⟩
  exact JsVal.Distinct.settle (.obj _ U.fields.nodup fun f hf => h.of_mem f (List.mem_append_right _ hf))

theorem Domain.durable_settle (h : (JsVal.obj D.toObj.entries).Distinct) : D.settle.Durable := by
  refine JsVal.Distinct.settle (.obj _ D.fields.nodup fun f hf => h.of_mem f ?_)
  rw [toObj_entries]
  exact List.mem_cons_of_mem _ (List.mem_cons_of_mem _ hf)

end Settled

namespace Store
variable {s : Store}

theorem Distinct.durable_settle (h : s.Distinct) : s.settle.Durable := by
  refine ⟨fun n Q hQ => ?_, fun n V hV => ?_, fun n D hD => ?_, JsVal.Distinct.settle h.config⟩
  · have hplans : s.settle.plans.get? n = some Q := hQ
    rw [settle, Dict.get?_modify, Dict.get?_mapVals] at hplans
    cases hP : s.plans.get? n with
    | none =>
      rw [hP] at hplans
      split at hplans
      · cases hplans
      · cases hplans
    | some P =>
      rw [hP] at hplans
      have hdurable := Plan.durable_settle (n := n) (h.plans n P hP)
      split at hplans
      · next he =>
        cases hplans
        rwa [if_pos he] at hdurable
      · next hne =>
        cases hplans
        rwa [if_neg hne] at hdurable
  · have husers : s.settle.users.get? n = some V := hV
    rw [settle, Dict.get?_mapVals] at husers
    obtain ⟨U, hU, rfl⟩ := Option.map_eq_some_iff.1 husers
    exact User.durable_settle (h.users n U hU)
  · have hdomains : s.settle.domains.get? n = some (some D) := hD
    rw [settle, Dict.get?_mapVals] at hdomains
    obtain ⟨E, hE, hED⟩ := Option.map_eq_some_iff.1 hdomains
    obtain ⟨E', rfl, rfl⟩ := Option.map_eq_some_iff.1 hED
    exact Domain.durable_settle (h.domains n E' hE)

/-- The store as it is read behind a write. -/
def saveAndRead (s : Store) : Js Store := readDB s.saved

def rounds : Nat → Store → Js Store
  | 0, s => .ok s
  | n + 1, s => s.saveAndRead >>= rounds n

/-- However often the store is written and read, it is what the first round made of it. -/
theorem rounds_eq (h : s.Distinct) (n : Nat) : rounds (n + 1) s = .ok s.settle := by
  have hlasting : ∀ n, rounds n s.settle = .ok s.settle := by
    intro n
    induction n with
    | zero => rfl
    | succ n ih =>
      have hdurable := h.durable_settle
      rw [rounds, saveAndRead, read_saved hdurable.distinct, hdurable.settle, Collect.ok_bind, ih]
  rw [rounds, saveAndRead, read_saved h, Collect.ok_bind, hlasting]

/-- Whatever calls are made, the store is read as it was written, as long as JSON has a form for the data of the
calls and the plan without limits keeps its permissions. -/
theorem read_of_reached (h : Reached (fun _ c => DurableCall c) s) : s.saveAndRead = .ok s := by
  have hdurable : s.Durable := h.keeps durable_installed fun _ _ hs hc => hs.exec hc
  rw [saveAndRead, read_saved hdurable.distinct, hdurable.settle]

theorem read_of_reached_sample : (installed.run sampleCalls).saveAndRead = .ok (installed.run sampleCalls) :=
  read_of_reached durableCalls_sample

end Store

/-! What the records tell of each other, and the checks, when the store has been read again. -/

/-- The name of the record and the records that it names. -/
def Plan.ties (P : Plan) : String × String × KeySet := (P.name, P.owner, P.users)

def User.ties (U : User) : String × String × KeySet × KeySet := (U.name, U.plan, U.subPlans, U.domains)

namespace Store

/-- The records name each other alike. -/
structure Alike (s s' : Store) : Prop where
  plan : ∀ p, (s'.plans.get? p).map Plan.ties = (s.plans.get? p).map Plan.ties
  user : ∀ u, (s'.users.get? u).map User.ties = (s.users.get? u).map User.ties
  domain : ∀ d, (s'.domains.get? d).map (Option.map Domain.owner) = (s.domains.get? d).map (Option.map Domain.owner)
  size : s'.plans.size = s.plans.size

namespace Alike
variable {s s' : Store} (h : Alike s s')
include h

theorem plan_map {α : Type} {f : Plan → α} (g : String × String × KeySet → α) (hf : ∀ P, g P.ties = f P) (p : String) :
    (s'.plans.get? p).map f = (s.plans.get? p).map f := by
  have hmap := congrArg (Option.map g) (h.plan p)
  rw [Option.map_map, Option.map_map] at hmap
  rwa [show g ∘ Plan.ties = f from funext hf] at hmap

theorem user_map {α : Type} {f : User → α} (g : String × String × KeySet × KeySet → α) (hf : ∀ U, g U.ties = f U)
    (u : String) : (s'.users.get? u).map f = (s.users.get? u).map f := by
  have hmap := congrArg (Option.map g) (h.user u)
  rw [Option.map_map, Option.map_map] at hmap
  rwa [show g ∘ User.ties = f from funext hf] at hmap

theorem seats (p : String) : s'.seats p = s.seats p :=
  congrArg (Option.getD · []) (h.plan_map (fun t => t.2.2.keys) (fun _ => rfl) p)

theorem ownerOf (p : String) : s'.ownerOf p = s.ownerOf p := h.plan_map (fun t => t.2.1) (fun _ => rfl) p

theorem planOf (u : String) : s'.planOf u = s.planOf u := h.user_map (fun t => t.2.1) (fun _ => rfl) u

theorem ownPlans (u : String) : s'.ownPlans u = s.ownPlans u :=
  congrArg (Option.getD · []) (h.user_map (fun t => t.2.2.1.keys) (fun _ => rfl) u)

theorem ownDomains (u : String) : s'.ownDomains u = s.ownDomains u :=
  congrArg (Option.getD · []) (h.user_map (fun t => t.2.2.2.keys) (fun _ => rfl) u)

theorem getDomain? (d : String) : (s'.getDomain? d).map Domain.owner = (s.getDomain? d).map Domain.owner := by
  have hjoin := congrArg Option.join (h.domain d)
  unfold Store.getDomain?
  cases hD : s.domains.get? d with
  | none =>
    rw [hD] at hjoin
    cases hD' : s'.domains.get? d with
    | none => rfl
    | some D' =>
      rw [hD'] at hjoin
      exact hjoin
  | some D =>
    rw [hD] at hjoin
    cases hD' : s'.domains.get? d with
    | none =>
      rw [hD'] at hjoin
      exact hjoin
    | some D' =>
      rw [hD'] at hjoin
      exact hjoin

theorem fuel : s'.fuel = s.fuel := congrArg (· + 1) h.size

theorem parentUp : s'.parentUp = s.parentUp := by
  funext p
  rw [Store.parentUp, h.ownerOf, show s'.planOf = s.planOf from funext h.planOf]
  rfl

theorem mem_domains {d : String} : d ∈ s'.domains ↔ d ∈ s.domains := by
  rw [Dict.mem_iff, Dict.mem_iff, ← Option.isSome_iff_exists, ← Option.isSome_iff_exists]
  have hsome := congrArg Option.isSome (h.domain d)
  rw [Option.isSome_map, Option.isSome_map] at hsome
  rw [hsome]

theorem integrity (hi : Integrity s) : Integrity s' := by
  refine ⟨fun u p => ?_, fun p u hu hp => ?_, fun p u hp => ?_, fun d u => ?_, fun d hd => ?_⟩
  · rw [h.planOf, h.seats]
    exact hi.seat u p
  · rw [h.ownPlans]
    exact hi.plan p u hu ((h.ownerOf p).symm.trans hp)
  · rw [h.ownPlans] at hp
    exact (h.ownerOf p).trans (hi.owned p u hp)
  · rw [domainOwner, h.getDomain?, h.ownDomains]
    exact hi.domain d u
  · have hsome := congrArg Option.isSome (h.getDomain? d)
    rw [Option.isSome_map, Option.isSome_map] at hsome
    rw [hsome]
    exact hi.filled d (h.mem_domains.1 hd)

theorem named (hn : Named s) : Named s' := by
  constructor
  · intro p P' hP'
    obtain ⟨P, hP, hties⟩ := Option.map_eq_some_iff.1 ((h.plan p).symm.trans (congrArg (Option.map Plan.ties) hP'))
    simp only [Plan.ties, Prod.mk.injEq] at hties
    obtain ⟨hname, howner, -⟩ := hties
    rw [← hname, ← howner]
    exact hn.plan p P hP
  · intro u U' hU'
    obtain ⟨U, hU, hties⟩ := Option.map_eq_some_iff.1 ((h.user u).symm.trans (congrArg (Option.map User.ties) hU'))
    simp only [User.ties, Prod.mk.injEq] at hties
    obtain ⟨hname, hplan, -⟩ := hties
    rw [← hname, ← hplan]
    exact hn.user u U hU

theorem forest (hf : Forest s) : Forest s' := by
  refine ⟨fun p P' hP' => ?_, hf.ranked.of_sub fun p q hq => ?_, hf.climbs.of_sub fun p q hq => ?_⟩
  · obtain ⟨P, hP, hties⟩ := Option.map_eq_some_iff.1 ((h.plan p).symm.trans (congrArg (Option.map Plan.ties) hP'))
    rw [← (Prod.mk.inj hties).1]
    exact hf.named p P hP
  · obtain ⟨u, hu, hqu⟩ := mem_subs.1 hq
    rw [h.seats] at hu
    rw [h.ownPlans] at hqu
    exact mem_subs.2 ⟨u, hu, hqu⟩
  · rwa [h.parentUp] at hq

/-- What is charged, where the same plans are suspended. -/
theorem load (hactive : ∀ q, s'.active q = s.active q) (hm : m.Counts) (p : String) : s'.load m p = s.load m p := by
  have hsubs : s'.activeSubs = s.activeSubs := by
    funext q
    rw [activeSubs, activeSubs, h.seats, show s'.active = s.active from funext hactive,
      show s'.ownPlans = s.ownPlans from funext h.ownPlans]
  have hcharge : s'.charge m = s.charge m := by
    funext q
    have hweigh : ∀ u, (s'.users.get? u).map m.weigh = (s.users.get? u).map m.weigh := by
      intro u
      cases hm with
      | user => exact h.user_map (fun _ => 1) (fun _ => rfl) u
      | domain => exact h.user_map (fun t => t.2.2.2.size) (fun _ => rfl) u
    rw [charge, charge, h.seats]
    simp only [hweigh]
  rw [Store.load, Store.load, hsubs, hcharge, h.fuel]

end Alike

variable {s s' : Store} {m : Measure} {p : String} {P : Plan}

theorem alike_settle (s : Store) : Alike s s.settle where
  plan p := by
    rw [settle, Dict.get?_modify, Dict.get?_mapVals]
    split
    · next he =>
      cases s.plans.get? p with
      | none => rfl
      | some P => rfl
    · cases s.plans.get? p with
      | none => rfl
      | some P => rfl
  user u := by
    rw [settle, Dict.get?_mapVals]
    cases s.users.get? u with
    | none => rfl
    | some U => rfl
  domain d := by
    rw [settle, Dict.get?_mapVals]
    cases s.domains.get? d with
    | none => rfl
    | some D =>
      cases D with
      | none => rfl
      | some D => rfl
  size := by rw [settle, Dict.size_modify, Dict.size_mapVals]

/-- What becomes of a plan. -/
theorem settle_plan (s : Store) (p : String) : s.settle.plans.get? p =
    (s.plans.get? p).map fun P => if p = unlimitedPlanName then P.settle.permitted else P.settle := by
  rw [settle, Dict.get?_modify, Dict.get?_mapVals]
  split
  · cases s.plans.get? p with
    | none => rfl
    | some P => rfl
  · rfl

theorem limit_settle (hm : m.Counts) (P : Plan) (p : String) :
    m.limit (if p = unlimitedPlanName then P.settle.permitted else P.settle) =
      (m.limit P).settled.getD .undefined := by
  cases hm with
  | user =>
    split
    · rfl
    · rfl
  | domain =>
    split
    · rfl
    · rfl

/-- Reasons are kept, and so is the absence of any. -/
theorem truthy_settled {v : JsVal} (h : v.Storable) : (v.settled.getD (.bool false)).truthy = v.truthy := by
  rw [h.settled, Option.getD_some]

theorem active_settle (hlists : ∀ p P, s.plans.get? p = some P → P.suspended.Storable) (p : String) :
    s.settle.active p = s.active p := by
  unfold active
  rw [settle_plan]
  cases hP : s.plans.get? p with
  | none => rfl
  | some P =>
    have htruthy := truthy_settled (hlists p P hP)
    rw [Option.map_some, Option.map_some, Option.map_some]
    split
    · exact congrArg (fun b => (some !b).getD false) htruthy
    · exact congrArg (fun b => (some !b).getD false) htruthy

/-- A count that JSON has no form for is nothing again, and nothing is no more than any count. -/
theorem settled_le {n : JsNum} (t : Nat) : (((JsVal.num n).settled.getD .undefined).le (.ofNat t) = false) ↔
    (JsVal.num n).le (.ofNat t) = false ∧ ∃ k, n = .int k := by
  have hnull : JsVal.null.le (.ofNat t) = true := by
    have hzero : JsVal.null.le (.ofNat t) = (JsVal.ofNat 0).le (.ofNat t) := rfl
    rw [hzero, JsVal.ofNat_le]
    exact decide_eq_true (Nat.zero_le t)
  have hlost : ∀ n : JsNum, (JsVal.num n).settled = some .null → (∀ k, n ≠ .int k) →
      ((((JsVal.num n).settled.getD .undefined).le (.ofNat t) = false) ↔
        (JsVal.num n).le (.ofNat t) = false ∧ ∃ k, n = .int k) := by
    intro n hn hno
    rw [hn, Option.getD_some, hnull]
    refine iff_of_false (by decide) fun h => ?_
    obtain ⟨-, k, hk⟩ := h
    exact hno k hk
  cases n with
  | int k => exact ⟨fun h => ⟨h, k, rfl⟩, fun h => h.1⟩
  | nan => exact hlost .nan rfl fun k hk => by cases hk
  | posInf => exact hlost .posInf rfl fun k hk => by cases hk
  | negInf => exact hlost .negInf rfl fun k hk => by cases hk

/-- The limit is a whole number. -/
def Finite (s : Store) (m : Measure) (q : String) : Prop :=
  ∀ Q, s.plans.get? q = some Q → ∃ k, m.limit Q = .num (.int k)

section Checks
variable (hi : Integrity s) (hf : Forest s)
include hi hf

theorem room_iff : s.Room m p ↔ ∃ P, s.plans.get? p = some P ∧ (m.limit P).le (.ofNat (s.load m p)) = false := by
  constructor
  · rintro ⟨P, t, hP, ht, hle⟩
    rw [hi.linked.total_load hf.ranked m hP] at ht
    cases ht
    exact ⟨P, hP, hle⟩
  · rintro ⟨P, hP, hle⟩
    exact ⟨P, _, hP, hi.linked.total_load hf.ranked m hP, hle⟩

theorem checkTotal_none (hn : Named s) (hP : s.plans.get? p = some P) : s.checkTotal m P = .ok none ↔ s.RoomUp m p := by
  obtain ⟨r, hr, hnone⟩ := checkTotal_total hi hn hf (m := m) hP
  rw [hr, ← hnone]
  exact ⟨fun he => Except.ok.inj he, fun he => congrArg Except.ok he⟩

end Checks

/-- Nothing but the plans whose limits are lost, and the plans below them, takes less when the store has been
written and read. -/
theorem checkTotal_read_iff (h : s.Distinct) (hi : Integrity s) (hn : Named s) (hf : Forest s)
    (hlists : ∀ q Q, s.plans.get? q = some Q → Q.suspended.Storable) (hm : m.Counts)
    (hlimit : ∀ q Q, s.plans.get? q = some Q → ∃ n, m.limit Q = .num n) (hs : s.saveAndRead = .ok s')
    (hP : s.plans.get? p = some P) :
    ∃ P', s'.plans.get? p = some P' ∧
      (s'.checkTotal m P' = .ok none ↔ s.checkTotal m P = .ok none ∧ ∀ q ∈ climb s.parentUp s.fuel p, s.Finite m q) := by
  rw [saveAndRead, read_saved h] at hs
  obtain rfl := Except.ok.inj hs
  have halike := alike_settle s
  have hroom : ∀ q, s.settle.Room m q ↔ s.Room m q ∧ s.Finite m q := by
    intro q
    rw [room_iff (halike.integrity hi) (halike.forest hf), room_iff hi hf,
      halike.load (active_settle hlists) hm, settle_plan]
    cases hQ : s.plans.get? q with
    | none =>
      constructor
      · rintro ⟨Q', hQ', -⟩
        cases hQ'
      · rintro ⟨⟨Q', hQ', -⟩, -⟩
        cases hQ'
    | some Q =>
      obtain ⟨n, hcount⟩ := hlimit q Q hQ
      have hle := settled_le (n := n) (s.load m q)
      rw [← hcount, ← limit_settle hm Q q] at hle
      constructor
      · rintro ⟨Q', hQ', hfree⟩
        obtain rfl := Option.some.inj hQ'
        obtain ⟨hroom, k, rfl⟩ := hle.1 hfree
        refine ⟨⟨Q, rfl, hroom⟩, fun Q' hQ' => ⟨k, ?_⟩⟩
        obtain rfl := Option.some.inj (hQ.symm.trans hQ')
        exact hcount
      · rintro ⟨⟨Q', hQ', hfree⟩, hfinite⟩
        obtain rfl := Option.some.inj hQ'
        obtain ⟨k, hk⟩ := hfinite _ hQ
        exact ⟨_, rfl, hle.2 ⟨hfree, k, JsVal.num.inj (hcount.symm.trans hk)⟩⟩
  refine ⟨_, (settle_plan s p).trans (congrArg _ hP), ?_⟩
  rw [checkTotal_none (halike.integrity hi) (halike.forest hf) (halike.named hn)
    ((settle_plan s p).trans (congrArg _ hP)), checkTotal_none hi hf hn hP, RoomUp, RoomUp, halike.parentUp,
    halike.fuel]
  constructor
  · intro hall
    exact ⟨fun q hq => ((hroom q).1 (hall q hq)).1, fun q hq => ((hroom q).1 (hall q hq)).2⟩
  · rintro ⟨hall, hfinite⟩
    exact fun q hq => (hroom q).2 ⟨hall q hq, hfinite q hq⟩

theorem alike_boundless : Alike (installed.run sampleCalls) boundless where
  plan p := by
    rw [boundless, modifyPlan, Dict.get?_modify]
    split
    · next he =>
      cases (installed.run sampleCalls).plans.get? p with
      | none => rfl
      | some P => rfl
    · rfl
  user u := rfl
  domain d := rfl
  size := Dict.size_modify _ _ _

theorem rounds_eq_sample : rounds 3 boundless = .ok boundless.settle := rounds_eq distinct_boundless 2

theorem checkTotal_read_iff_sample : ∃ s' P P', boundless.saveAndRead = .ok s' ∧ boundless.plans.get? "gold" = some P ∧
    s'.plans.get? "gold" = some P' ∧ boundless.checkTotal userMeasure P = .ok none ∧
      s'.checkTotal userMeasure P' ≠ .ok none := by
  have hall : ∀ e ∈ boundless.plans.entries, e.2.suspended = .bool false ∧ ∃ n, e.2.maxUserCount = .num n := by
    have hentries : boundless.plans.entries.map (fun e => (e.1, e.2.suspended, e.2.maxUserCount)) =
      [(unlimitedPlanName, .bool false, .num (.int 100000)), ("gold", .bool false, .num .nan)] := rfl
    intro e he
    have hmem : (e.1, e.2.suspended, e.2.maxUserCount) ∈ _ :=
      List.mem_map_of_mem (f := fun e : String × Plan => (e.1, e.2.suspended, e.2.maxUserCount)) he
    rw [hentries] at hmem
    rcases List.mem_cons.1 hmem with h | h
    · simp only [Prod.mk.injEq] at h
      exact ⟨h.2.1, _, h.2.2⟩
    · simp only [List.mem_singleton, Prod.mk.injEq] at h
      exact ⟨h.2.1, _, h.2.2⟩
  obtain ⟨P, hP, hnan⟩ := Option.map_eq_some_iff.1
    (show (boundless.plans.get? "gold").map Plan.maxUserCount = some (.num .nan) from rfl)
  have hchecked : (boundless.plans.get? "gold").map (fun P => boundless.checkTotal userMeasure P) = some (.ok none) := by
    decide +kernel
  rw [hP] at hchecked
  have hbefore : boundless.checkTotal userMeasure P = .ok none := Option.some.inj hchecked
  have hc := consistent_sample
  have hread : boundless.saveAndRead = .ok boundless.settle := read_saved distinct_boundless
  obtain ⟨P', hP', hiff⟩ := checkTotal_read_iff distinct_boundless (alike_boundless.integrity hc.integrity)
    (alike_boundless.named hc.sound.named) (alike_boundless.forest hc.forest)
    (fun q Q hQ => by
      rw [(hall (q, Q) (Dict.get?_eq_some.1 hQ)).1]
      exact .bool false)
    .user (fun q Q hQ => (hall (q, Q) (Dict.get?_eq_some.1 hQ)).2) hread hP
  refine ⟨_, P, P', hread, hP, hP', hbefore, fun hafter => ?_⟩
  obtain ⟨k, hk⟩ := (hiff.1 hafter).2 "gold" List.mem_cons_self P hP
  rw [show userMeasure.limit P = .num .nan from hnan] at hk
  cases hk

end Store
end JXPanel

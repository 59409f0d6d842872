import JXPanel.Growth

namespace JXPanel
set_option autoImplicit true

/-- The keys of an add-on begin with its id and `@`. -/
def isAddonKey (id k : String) : Bool := (id ++ "@").toList.isPrefixOf k.toList

/-- `delete user.addons[id]`, for a value that is there or, as `remove` asks, one that is not falsy. -/
def User.eraseAddon (U : User) (id : String) (asks : JsVal → Bool) : User :=
  match prop U.fields "addons" with
  | .obj fs =>
    if id ∈ Dict.ofList fs ∧ asks (prop (Dict.ofList fs) id) = true then
      { U with
        fields := U.fields.set "addons" (.obj ((Dict.ofList fs).erase id).entries)
        extra := extra_set U.extra (by decide) }
    else U
  | _ => U

/-- The plan without the keys of the add-on, and its maximums without them. -/
def Plan.withoutAddon (id : String) (P : Plan) : Plan :=
  { P with
    fields := P.fields.dropKeys (isAddonKey id)
    extra := fun k hk => P.extra k (Dict.mem_dropKeys.1 hk).2
    planMaximums := P.planMaximums.dropKeys (isAddonKey id) }

/-- The user without what he has of the add-on. -/
def User.withoutAddon (id : String) (U : User) : User := U.eraseAddon id fun _ => true

namespace Store

/-- One pass of the loop: a user and the plan that he is on. -/
def removeFrom (id : String) (s : Store) (u : String) : Store :=
  match s.users.get? u with
  | none => s
  | some U => (s.setUser u (U.eraseAddon id JsVal.truthy)).modifyPlan U.plan (Plan.withoutAddon id)

/-- The part of `remove` that works on the records. -/
def removeAddon (s : Store) (id : String) : Js Store := do
  let users ← s.getUsersByPlanName 10000000 unlimitedPlanName
  return users.foldl (removeFrom id) s

/-- The records are as they were but for what they had of the add-on, which is gone. -/
structure WithoutAddon (id : String) (s s' : Store) : Prop where
  users : ∀ u, s'.users.get? u = (s.users.get? u).map (User.withoutAddon id)
  plans : ∀ p, s'.plans.get? p = (s.plans.get? p).map (Plan.withoutAddon id)
  domains : s'.domains = s.domains
  config : s'.config = s.config

/-- The traversal from the root plan meets the user. -/
def FoundBelowRoot (s : Store) (u : String) : Prop :=
  ∃ q ∈ Hierarchy.descend s.subs 10000000 unlimitedPlanName, u ∈ s.seats q

/-- Whoever has the add-on is found and has it with a value that is not falsy, and whatever plan has
keys of it has a user who is found. -/
structure AddonInReach (s : Store) (id : String) : Prop where
  root : unlimitedPlanName ∈ s.plans
  users : ∀ u U fs, s.users.get? u = some U → prop U.fields "addons" = .obj fs → id ∈ Dict.ofList fs →
    (prop (Dict.ofList fs) id).truthy = true ∧ s.FoundBelowRoot u
  plans : ∀ p P k, s.plans.get? p = some P → k ∈ P.fields ∨ k ∈ P.planMaximums → isAddonKey id k = true →
    ∃ u ∈ s.seats p, s.FoundBelowRoot u

end Store

section Records
variable {U : User} {P : Plan} {id k : String} {asks : JsVal → Bool} {fs : List (String × JsVal)}

theorem User.eraseAddon_plan : (U.eraseAddon id asks).plan = U.plan := by
  unfold eraseAddon
  split
  · split
    · rfl
    · rfl
  · rfl

theorem User.eraseAddon_of_obj (h : prop U.fields "addons" = .obj fs) : U.eraseAddon id asks =
    if id ∈ Dict.ofList fs ∧ asks (prop (Dict.ofList fs) id) = true then
      { U with
        fields := U.fields.set "addons" (.obj ((Dict.ofList fs).erase id).entries)
        extra := extra_set U.extra (by decide) }
    else U := by
  unfold eraseAddon
  split
  · rename_i fs' h'
    rw [h] at h'
    cases h'
    rfl
  · rename_i hne
    exact absurd h (hne fs)

theorem User.eraseAddon_of_absent (h : ∀ fs, prop U.fields "addons" = .obj fs → id ∉ Dict.ofList fs) :
    U.eraseAddon id asks = U := by
  unfold eraseAddon
  split
  · rename_i fs hfs
    rw [if_neg]
    rintro ⟨hid, -⟩
    exact h fs hfs hid
  · rfl

/-- No user without the add-on has an entry for it. -/
theorem User.not_mem_withoutAddon (h : prop (U.withoutAddon id).fields "addons" = .obj fs) : id ∉ Dict.ofList fs := by
  intro hid
  unfold withoutAddon at h
  cases hv : prop U.fields "addons" with
  | obj fs' =>
    rw [eraseAddon_of_obj hv] at h
    split at h
    · dsimp only at h
      rw [prop, Dict.get?_set_self] at h
      cases h
      rw [Dict.ofList_entries] at hid
      exact (Dict.mem_erase.1 hid).1 rfl
    · rename_i hno
      rw [hv] at h
      cases h
      exact hno ⟨hid, rfl⟩
  | undefined | null | bool | num | str | arr =>
    unfold eraseAddon at h
    rw [hv] at h
    rw [hv] at h
    cases h

/-- Its other fields are those it had. -/
theorem User.withoutAddon_prop (hk : k ≠ "addons") : prop (U.withoutAddon id).fields k = prop U.fields k := by
  unfold withoutAddon eraseAddon
  split
  · split
    · rw [prop, prop, Dict.get?_set_ne _ _ hk]
    · rfl
  · rfl

theorem User.eraseAddon_eraseAddon : (U.eraseAddon id asks).eraseAddon id asks = U.eraseAddon id asks := by
  cases hv : prop U.fields "addons" with
  | obj fs =>
    rw [eraseAddon_of_obj hv]
    split
    · apply eraseAddon_of_absent
      intro fs' hfs'
      dsimp only at hfs'
      rw [prop, Dict.get?_set_self] at hfs'
      cases hfs'
      rw [Dict.ofList_entries]
      exact fun hid => (Dict.mem_erase.1 hid).1 rfl
    · rename_i hno
      rw [eraseAddon_of_obj hv, if_neg hno]
  | undefined | null | bool | num | str | arr =>
    have hidle : U.eraseAddon id asks = U := eraseAddon_of_absent fun fs hfs => by
      rw [hv] at hfs
      cases hfs
    rw [hidle, hidle]

/-- An entry is taken away for good just where it is not falsy. -/
theorem User.eraseAddon_eq_withoutAddon_iff : U.eraseAddon id JsVal.truthy = U.withoutAddon id ↔
    ∀ fs, prop U.fields "addons" = .obj fs → id ∈ Dict.ofList fs → (prop (Dict.ofList fs) id).truthy = true := by
  constructor
  · intro he fs hfs hid
    by_contra hfalsy
    rw [eraseAddon_of_obj hfs, if_neg (fun h => hfalsy h.2)] at he
    exact User.not_mem_withoutAddon (he ▸ hfs) hid
  · intro h
    cases hv : prop U.fields "addons" with
    | obj fs =>
      rw [withoutAddon, eraseAddon_of_obj hv, eraseAddon_of_obj hv]
      by_cases hid : id ∈ Dict.ofList fs
      · rw [if_pos ⟨hid, h fs hv hid⟩, if_pos ⟨hid, rfl⟩]
      · rw [if_neg (fun h => hid h.1), if_neg (fun h => hid h.1)]
    | undefined | null | bool | num | str | arr =>
      rw [withoutAddon, eraseAddon_of_absent, eraseAddon_of_absent]
      · intro fs hfs
        rw [hv] at hfs
        cases hfs
      · intro fs hfs
        rw [hv] at hfs
        cases hfs

theorem User.withoutAddon_eq_self_iff : U.withoutAddon id = U ↔
    ∀ fs, prop U.fields "addons" = .obj fs → id ∉ Dict.ofList fs := by
  constructor
  · intro he fs hfs
    rw [← he] at hfs
    exact User.not_mem_withoutAddon hfs
  · intro h
    exact eraseAddon_of_absent h

/-- A plan without the add-on has no key of it, and otherwise what it had. -/
theorem Plan.withoutAddon_prop : prop (P.withoutAddon id).fields k =
    if isAddonKey id k = true then .undefined else prop P.fields k := by
  rw [prop, withoutAddon, Dict.get?_dropKeys]
  split
  · rfl
  · rfl

theorem Plan.withoutAddon_withoutAddon : (P.withoutAddon id).withoutAddon id = P.withoutAddon id := by
  unfold withoutAddon
  simp only [Dict.dropKeys_dropKeys]

theorem Plan.withoutAddon_eq_self_iff : P.withoutAddon id = P ↔
    ∀ k, k ∈ P.fields ∨ k ∈ P.planMaximums → isAddonKey id k = false := by
  constructor
  · intro he k hk
    rcases hk with hk | hk
    · rw [← he] at hk
      exact (Dict.mem_dropKeys.1 hk).1
    · rw [← he] at hk
      exact (Dict.mem_dropKeys.1 hk).1
  · intro h
    unfold withoutAddon
    cases P
    congr
    · exact Dict.dropKeys_eq_self fun k hk => h k (.inr hk)
    · exact Dict.dropKeys_eq_self fun k hk => h k (.inl hk)

end Records

namespace Store
variable {s : Store} {id : String}

theorem planOf_removeFrom (u v : String) : (s.removeFrom id u).planOf v = s.planOf v := by
  unfold removeFrom
  cases hU : s.users.get? u with
  | none => rfl
  | some U =>
    change (s.setUser u (U.eraseAddon id JsVal.truthy)).planOf v = _
    rw [planOf_setUser, User.eraseAddon_plan]
    split
    · next he => rw [he, planOf_of_get? hU]
    · rfl

open Classical in
/-- What the loop leaves of each record. -/
theorem foldl_removeFrom (l : List String) (s : Store) :
    (∀ u, (l.foldl (removeFrom id) s).users.get? u = (s.users.get? u).map fun U =>
      if u ∈ l then U.eraseAddon id JsVal.truthy else U) ∧
    (∀ p, (l.foldl (removeFrom id) s).plans.get? p = (s.plans.get? p).map fun P =>
      if ∃ u ∈ l, s.planOf u = some p then P.withoutAddon id else P) ∧
    (l.foldl (removeFrom id) s).domains = s.domains ∧ (l.foldl (removeFrom id) s).config = s.config := by
  induction l generalizing s with
  | nil =>
    refine ⟨fun u => ?_, fun p => ?_, rfl, rfl⟩
    · simp
    · simp
  | cons v l ih =>
    obtain ⟨husers, hplans, hdomains, hconfig⟩ := ih (s.removeFrom id v)
    simp only [planOf_removeFrom] at hplans
    rw [List.foldl_cons]
    cases hV : s.users.get? v with
    | none =>
      have hsame : s.removeFrom id v = s := by rw [removeFrom, hV]
      rw [hsame] at husers hplans hdomains hconfig ⊢
      refine ⟨fun u => ?_, fun p => ?_, hdomains, hconfig⟩
      · rw [husers]
        by_cases hu : u = v
        · rw [hu, hV]
          rfl
        · simp only [List.mem_cons, hu, false_or]
      · rw [hplans]
        have hnone : s.planOf v ≠ some p := by
          rw [planOf, hV]
          exact fun h => by cases h
        simp only [List.exists_mem_cons_iff, hnone, false_or]
    | some V =>
      have hstep : s.removeFrom id v =
          (s.setUser v (V.eraseAddon id JsVal.truthy)).modifyPlan V.plan (Plan.withoutAddon id) := by
        rw [removeFrom, hV]
      refine ⟨fun u => ?_, fun p => ?_, hdomains.trans ?_, hconfig.trans ?_⟩
      · rw [husers, hstep]
        change ((s.users.set v (V.eraseAddon id JsVal.truthy)).get? u).map _ = _
        by_cases hu : u = v
        · rw [hu, Dict.get?_set_self, hV]
          simp only [Option.map_some, List.mem_cons, true_or, if_true, User.eraseAddon_eraseAddon, ite_self]
        · rw [Dict.get?_set_ne _ _ hu]
          simp only [List.mem_cons, hu, false_or]
      · have hplan : s.planOf v = some p ↔ p = V.plan := by
          rw [planOf_of_get? hV]
          exact ⟨fun h => (Option.some.inj h).symm, fun h => h ▸ rfl⟩
        rw [hplans, hstep]
        change ((s.plans.modify V.plan (Plan.withoutAddon id)).get? p).map _ = _
        simp only [List.exists_mem_cons_iff, hplan]
        by_cases hp : p = V.plan
        · rw [hp, Dict.get?_modify_self, Option.map_map]
          congr 1
          funext P
          simp only [Function.comp_apply, true_or, if_true, Plan.withoutAddon_withoutAddon, ite_self]
        · rw [Dict.get?_modify_ne _ _ hp]
          simp only [hp, false_or]
      · rw [hstep]
        rfl
      · rw [hstep]
        rfl

/-- An add-on goes without a trace, and nothing goes with it, just when all it is noted in is in the
reach of the traversal. -/
theorem removeAddon_iff (h : Integrity s) (id : String) :
    (∃ s', s.removeAddon id = .ok s' ∧ WithoutAddon id s s') ↔ s.AddonInReach id := by
  by_cases hroot : unlimitedPlanName ∈ s.plans
  · obtain ⟨l, hl⟩ := h.linked.getUsersByPlanName_total 10000000 hroot
    have hmem : ∀ u, u ∈ l ↔ s.FoundBelowRoot u := fun u => getUsersByPlanName_mem hl
    have hrun : s.removeAddon id = .ok (l.foldl (removeFrom id) s) := by
      rw [removeAddon, hl]
      rfl
    obtain ⟨husers, hplans, hdomains, hconfig⟩ := @foldl_removeFrom id l s
    have hseat : ∀ u p, s.planOf u = some p ↔ u ∈ s.seats p := h.seat
    constructor
    · rintro ⟨s', hs', hwithout⟩
      rw [hrun] at hs'
      cases hs'
      refine ⟨hroot, fun u U fs hU hfs hid => ?_, fun p P k hP hk hkey => ?_⟩
      · have hu := hwithout.users u
        rw [husers, hU, Option.map_some, Option.map_some] at hu
        have heq := Option.some.inj hu
        by_cases hul : u ∈ l
        · rw [if_pos hul] at heq
          exact ⟨User.eraseAddon_eq_withoutAddon_iff.1 heq fs hfs hid, (hmem u).1 hul⟩
        · rw [if_neg hul] at heq
          exact absurd hid (User.withoutAddon_eq_self_iff.1 heq.symm fs hfs)
      · have hp := hwithout.plans p
        rw [hplans, hP, Option.map_some, Option.map_some] at hp
        have heq := Option.some.inj hp
        by_contra hno
        rw [if_neg] at heq
        · have hfree := Plan.withoutAddon_eq_self_iff.1 heq.symm k hk
          rw [hkey] at hfree
          cases hfree
        · rintro ⟨u, hul, hplan⟩
          exact hno ⟨u, (hseat u p).1 hplan, (hmem u).1 hul⟩
    · intro hreach
      refine ⟨_, hrun, fun u => ?_, fun p => ?_, hdomains, hconfig⟩
      · rw [husers]
        cases hU : s.users.get? u with
        | none => rfl
        | some U =>
          rw [Option.map_some, Option.map_some]
          congr 1
          split
          · apply User.eraseAddon_eq_withoutAddon_iff.2
            intro fs hfs hid
            exact (hreach.users u U fs hU hfs hid).1
          · rename_i hul
            apply (User.withoutAddon_eq_self_iff.2 _).symm
            intro fs hfs hid
            exact hul ((hmem u).2 (hreach.users u U fs hU hfs hid).2)
      · rw [hplans]
        cases hP : s.plans.get? p with
        | none => rfl
        | some P =>
          rw [Option.map_some, Option.map_some]
          congr 1
          split
          · rfl
          · rename_i hno
            apply (Plan.withoutAddon_eq_self_iff.2 _).symm
            intro k hk
            rw [← Bool.not_eq_true]
            intro hkey
            obtain ⟨u, hu, hfound⟩ := hreach.plans p P k hP hk hkey
            exact hno ⟨u, (hmem u).2 hfound, (hseat u p).2 hu⟩
  · apply iff_of_false
    · rintro ⟨s', hs', -⟩
      rw [removeAddon, getUsersByPlanName, Dict.get?_eq_none.2 hroot] at hs'
      cases hs'
    · exact fun hreach => hroot hreach.root

/-- A plan with a maximum of an add-on, before it has users. -/
def addonPlanCalls : List Call :=
  [.addUser unlimitedPlanName "ann" .empty,
    .addPlan (some "ann") "gold" ((planOpts 5 5).set "planMaximums" (.obj [("mongodb@size", .num (.int 7))]))]

def addonUserCalls : List Call := addonPlanCalls ++ [.addUser "gold" "bob" .empty]

theorem adds_addonPlan : Adds (.addPlan (some "ann") "gold"
    ((planOpts 5 5).set "planMaximums" (.obj [("mongodb@size", .num (.int 7))]))) := by
  refine ⟨by decide, by decide, by decide, ?_⟩
  intro k hk htruthy
  have hne : k ≠ "planMaximums" := by
    rintro rfl
    revert hk
    decide
  have hprop : prop ((planOpts 5 5).set "planMaximums" (.obj [("mongodb@size", .num (.int 7))])) k =
      prop (planOpts 5 5) k := by
    rw [prop, prop, Dict.get?_set_ne _ _ hne]
  rw [hprop] at htruthy ⊢
  exact wholeLimits_planOpts 5 5 k hk htruthy

theorem integrity_addonPlanCalls : Integrity (installed.run addonPlanCalls) := by
  have hreached : Reached (fun _ c => Adds c) (installed.run addonPlanCalls) :=
    Runs.Reached.run .start ⟨⟨by decide, by decide, plainOpts_empty⟩, adds_addonPlan, trivial⟩
  exact (consistent_of_adds hreached).integrity

theorem removeAddon_iff_sample :
    (∃ s', (installed.run addonUserCalls).removeAddon "mongo" = .ok s' ∧
      WithoutAddon "mongo" (installed.run addonUserCalls) s') ↔ (installed.run addonUserCalls).AddonInReach "mongo" := by
  have hreached : Reached (fun _ c => Adds c) (installed.run addonUserCalls) :=
    Runs.Reached.run .start ⟨⟨by decide, by decide, plainOpts_empty⟩, adds_addonPlan,
      ⟨by decide, by decide, plainOpts_empty⟩, trivial⟩
  exact removeAddon_iff (consistent_of_adds hreached).integrity "mongo"

/-- A plan without users keeps the keys of the add-on. -/
theorem empty_plan_keeps_addon : ¬∀ s id, Integrity s → ∃ s', s.removeAddon id = .ok s' ∧ WithoutAddon id s s' := by
  intro h
  obtain ⟨s', hs', hwithout⟩ := h _ "mongodb" integrity_addonPlanCalls
  have hkept : ((installed.run addonPlanCalls).removeAddon "mongodb").toOption.map (fun s =>
      (s.plans.get? "gold").map fun P => decide ("mongodb@size" ∈ P.planMaximums)) = some (some true) := by
    decide +kernel
  rw [hs'] at hkept
  have hplan : (s'.plans.get? "gold").map (fun P => decide ("mongodb@size" ∈ P.planMaximums)) = some true :=
    Option.some.inj hkept
  rw [hwithout.plans, Option.map_map] at hplan
  obtain ⟨P, -, hP⟩ := Option.map_eq_some_iff.1 hplan
  have hmem : "mongodb@size" ∈ (P.withoutAddon "mongodb").planMaximums := of_decide_eq_true hP
  have hfree := (Dict.mem_dropKeys.1 hmem).1
  revert hfree
  decide

end Store
end JXPanel

import JXPanel.PlanUpdates

namespace JXPanel
set_option autoImplicit true

open Hierarchy

/-- What `update` returns for a field: the value before and the one after. -/
structure MaximumChange where
  old : JsVal
  new : JsVal

/-- What an add-on is told of one of its fields. -/
structure CriterionChange where
  user : String
  old : JsVal
  new : JsVal
  checkSuspension : Bool

structure AddonCall where
  addon : String
  user_changes : Dict String CriterionChange

def addonOf (field_name : String) : String := String.ofList (field_name.toList.takeWhile (· ≠ '@'))

def afterAt (field_name : String) : List Char := (field_name.toList.dropWhile (· ≠ '@')).drop 1

def addonFieldOf (field_name : String) : String := String.ofList ((afterAt field_name).takeWhile (· ≠ '@'))

def namesAddon (field_name : String) : Bool := decide ('@' ∈ field_name.toList)

def ofInstalled (addons : List String) (field_name : String) : Bool :=
  namesAddon field_name && decide (addonOf field_name ∈ addons)

structure Gathered where
  user_changes : Dict String CriterionChange
  changed : Bool
  addon_name : String

namespace Store

def oldMaximum (plan user_plan : Plan) (user : User) (field_name : String) (d : MaximumChange) : JsVal :=
  if user.plan = plan.name then d.old
  else if (prop user_plan.planMaximums field_name).truthy then prop user_plan.planMaximums field_name
  else .undefined

def gather (addons : List String) (plan user_plan : Plan) (user : User) (st : Gathered) (field_name : String)
    (d : MaximumChange) : Gathered :=
  if namesAddon field_name then
    if addonOf field_name ∈ addons then
      let old := oldMaximum plan user_plan user field_name d
      { user_changes := st.user_changes.set (addonFieldOf field_name)
          { user := user.name, old, new := d.new, checkSuspension := d.new.lt old }
        changed := true
        addon_name := addonOf field_name }
    else { st with addon_name := addonOf field_name }
  else st

/-- The pass over one user. The add-on that is called is the one that the last field named. -/
def criteriaCalls (s : Store) (addons : List String) (plan : Plan) (planMaximumsData : Dict String MaximumChange)
    (o : String) : Js (List (String × AddonCall)) :=
  match s.users.get? o with
  | none => .ok []
  | some user =>
    match s.plans.get? user.plan with
    | none => .ok []
    | some user_plan =>
      let st := planMaximumsData.foldl (gather addons plan user_plan user) ⟨.empty, false, ""⟩
      if st.changed then
        if st.addon_name ∈ addons then .ok [(o, ⟨st.addon_name, st.user_changes⟩)] else .error .typeError
      else .ok []

def checkHostingPlanCriteriaChanged (s : Store) (addons : List String) (plan : Plan)
    (planMaximumsData : Dict String MaximumChange) : Js (List (String × AddonCall)) := do
  let users ← s.getUsersByPlanName 10000000 plan.name
  Collect.concatM (s.criteriaCalls addons plan planMaximumsData) users

end Store

/-- No limit: `-1`, or none at all. -/
def unlimited (v : JsVal) : Bool := JsVal.strictEq v .undefined || JsVal.strictEq v defaultMaximum

/-- The new limit allows less than the old one. -/
def stricter (new old : JsVal) : Bool := !unlimited new && (unlimited old || new.lt old)

/-- The comparison of numbers goes the right way where one of them stands for no limit. -/
def SeenRight (new old : JsVal) : Prop :=
  if unlimited new then new.lt old = false else unlimited old = true → new.lt old = true

def criterionChange (plan user_plan : Plan) (user : User) (field_name : String) (d : MaximumChange) : CriterionChange :=
  let old := if user.plan = plan.name then d.old else prop user_plan.planMaximums field_name
  { user := user.name, old, new := d.new, checkSuspension := stricter d.new old }

/-- The calls for one user are right: every installed add-on with a changed field gets one, with all its
fields and no others, and no other add-on gets any. -/
structure CallsRight (addons : List String) (plan user_plan : Plan) (user : User)
    (planMaximumsData : Dict String MaximumChange) (calls : List AddonCall) : Prop where
  called : ∀ a, (calls.map AddonCall.addon).count a =
    if ∃ k ∈ planMaximumsData, ofInstalled addons k = true ∧ addonOf k = a then 1 else 0
  told : ∀ c ∈ calls, ∀ k d, planMaximumsData.get? k = some d → ofInstalled addons k = true → addonOf k = c.addon →
    c.user_changes.get? (String.ofList (afterAt k)) = some (criterionChange plan user_plan user k d)
  only : ∀ c ∈ calls, ∀ f ∈ c.user_changes, ∃ k ∈ planMaximumsData, ofInstalled addons k = true ∧
    addonOf k = c.addon ∧ f = String.ofList (afterAt k)

/-- The last of the changed fields that name an add-on. -/
def lastNamed (planMaximumsData : Dict String MaximumChange) : Option String :=
  (planMaximumsData.keys.filter namesAddon).getLast?

/-- The changed fields can be told to the right add-on: all fields of installed add-ons are of the one
that the last field names, and have one `@`, and the limits compare as they should. -/
structure CriteriaPlain (addons : List String) (plan user_plan : Plan) (user : User)
    (planMaximumsData : Dict String MaximumChange) : Prop where
  last : ∀ k ∈ planMaximumsData, ofInstalled addons k = true → ∀ k', lastNamed planMaximumsData = some k' →
    addonOf k' = addonOf k
  one : ∀ k ∈ planMaximumsData, ofInstalled addons k = true → '@' ∉ afterAt k
  old : ∀ k ∈ planMaximumsData, ofInstalled addons k = true → user.plan = plan.name ∨
    (prop user_plan.planMaximums k).truthy = true ∨ prop user_plan.planMaximums k = .undefined
  right : ∀ k d, planMaximumsData.get? k = some d → ofInstalled addons k = true →
    SeenRight d.new (if user.plan = plan.name then d.old else prop user_plan.planMaximums k)

namespace Store

def FoundBelow (s : Store) (p u : String) : Prop := ∃ q ∈ descend s.subs 10000000 p, u ∈ s.seats q

/-- The routing of the changes: nothing is thrown, and each user's calls are right. -/
def RoutesRight (s : Store) (addons : List String) (plan : Plan) (planMaximumsData : Dict String MaximumChange) : Prop :=
  ∃ log, s.checkHostingPlanCriteriaChanged addons plan planMaximumsData = .ok log ∧
    (∀ e ∈ log, s.FoundBelow plan.name e.1) ∧
      ∀ u U Q, s.FoundBelow plan.name u → s.users.get? u = some U → s.plans.get? U.plan = some Q →
        CallsRight addons plan Q U planMaximumsData ((log.filter fun e => decide (e.1 = u)).map Prod.snd)

end Store

section Fields
variable {addons : List String} {k k' : String} {plan user_plan : Plan} {user : User} {d : MaximumChange}

theorem at_not_mem_addonFieldOf : '@' ∉ (addonFieldOf k).toList := by
  intro hm
  rw [addonFieldOf, String.toList_ofList] at hm
  have hkept := List.mem_takeWhile_imp hm
  simp at hkept

theorem addonFieldOf_of_one (h : '@' ∉ afterAt k) : addonFieldOf k = String.ofList (afterAt k) := by
  rw [addonFieldOf]
  congr 1
  apply List.takeWhile_eq_self_iff.2
  intro c hc
  apply decide_eq_true
  rintro rfl
  exact h hc

theorem toList_of_named (h : namesAddon k = true) : k.toList = (addonOf k).toList ++ '@' :: afterAt k := by
  rw [addonOf, afterAt, String.toList_ofList]
  have hsplit := List.takeWhile_append_dropWhile (p := fun c : Char => decide (c ≠ '@')) (l := k.toList)
  cases hrest : k.toList.dropWhile (fun c => decide (c ≠ '@')) with
  | nil =>
    have hall := List.dropWhile_eq_nil_iff.1 hrest '@' (of_decide_eq_true h)
    simp at hall
  | cons c rest =>
    have hhead : c = '@' := by
      have hfirst := List.head?_dropWhile_not (fun c => decide (c ≠ '@')) k.toList
      rw [hrest] at hfirst
      exact not_not.1 (of_decide_eq_false hfirst)
    rw [hrest, hhead] at hsplit
    exact hsplit.symm

theorem field_injective (h : namesAddon k = true) (h' : namesAddon k' = true) (ha : addonOf k = addonOf k')
    (hr : afterAt k = afterAt k') : k = k' := by
  apply String.toList_injective
  rw [toList_of_named h, toList_of_named h', ha, hr]

theorem lt_eq_stricter_iff {new old : JsVal} : new.lt old = stricter new old ↔ SeenRight new old := by
  unfold stricter SeenRight
  cases unlimited new with
  | true => simp
  | false =>
    cases unlimited old with
    | true => simp
    | false => simp

/-- The code's account of a field is the right one just when the old value is seen and compares right. -/
theorem change_eq_iff : (⟨user.name, Store.oldMaximum plan user_plan user k d, d.new,
      d.new.lt (Store.oldMaximum plan user_plan user k d)⟩ : CriterionChange) = criterionChange plan user_plan user k d ↔
    (user.plan = plan.name ∨ (prop user_plan.planMaximums k).truthy = true ∨
        prop user_plan.planMaximums k = .undefined) ∧
      SeenRight d.new (if user.plan = plan.name then d.old else prop user_plan.planMaximums k) := by
  unfold criterionChange
  rw [CriterionChange.mk.injEq, ← lt_eq_stricter_iff]
  simp only [true_and]
  have hold : Store.oldMaximum plan user_plan user k d =
        (if user.plan = plan.name then d.old else prop user_plan.planMaximums k) ↔
      (user.plan = plan.name ∨ (prop user_plan.planMaximums k).truthy = true ∨
        prop user_plan.planMaximums k = .undefined) := by
    unfold Store.oldMaximum
    by_cases hp : user.plan = plan.name
    · exact iff_of_true (by rw [if_pos hp, if_pos hp]) (.inl hp)
    · rw [if_neg hp, if_neg hp]
      by_cases ht : (prop user_plan.planMaximums k).truthy = true
      · exact iff_of_true (if_pos ht) (.inr (.inl ht))
      · rw [if_neg ht]
        constructor
        · intro he
          exact .inr (.inr he.symm)
        · rintro (he | he | he)
          · exact absurd he hp
          · exact absurd he ht
          · exact he.symm
  rw [hold]
  refine and_congr_right fun hseen => ?_
  rw [hold.2 hseen]

end Fields

namespace Store
variable {s : Store} {addons : List String} {plan user_plan : Plan} {user : User}

theorem foldl_gather (es : List (String × MaximumChange)) (st : Gathered) :
    (es.foldl (fun st e => gather addons plan user_plan user st e.1 e.2) st).changed =
        (st.changed || es.any fun e => ofInstalled addons e.1) ∧
      (es.foldl (fun st e => gather addons plan user_plan user st e.1 e.2) st).addon_name =
        (((es.map Prod.fst).filter namesAddon).getLast?.map addonOf).getD st.addon_name := by
  induction es generalizing st with
  | nil => simp
  | cons e es ih =>
    rw [List.foldl_cons, (ih _).1, (ih _).2]
    unfold gather ofInstalled
    rw [List.any_cons, List.map_cons, List.filter_cons]
    by_cases hn : namesAddon e.1 = true
    · simp only [hn, if_true, Bool.true_and, List.getLast?_cons]
      by_cases ha : addonOf e.1 ∈ addons
      · simp only [ha, if_true, decide_true, Bool.true_or, Bool.or_true, true_and]
        cases ((es.map Prod.fst).filter namesAddon).getLast? with
        | none => rfl
        | some k => rfl
      · simp only [ha, if_false, decide_false, Bool.false_or, true_and]
        cases ((es.map Prod.fst).filter namesAddon).getLast? with
        | none => rfl
        | some k => rfl
    · simp only [hn, if_false, Bool.false_and, Bool.false_or, Bool.false_eq_true, true_and]

def codeChange (plan user_plan : Plan) (user : User) (e : String × MaximumChange) : CriterionChange :=
  { user := user.name, old := oldMaximum plan user_plan user e.1 e.2, new := e.2.new
    checkSuspension := e.2.new.lt (oldMaximum plan user_plan user e.1 e.2) }

theorem gather_installed {st : Gathered} {e : String × MaximumChange} (hin : ofInstalled addons e.1 = true) :
    (gather addons plan user_plan user st e.1 e.2).user_changes =
      st.user_changes.set (addonFieldOf e.1) (codeChange plan user_plan user e) := by
  obtain ⟨hn, ha⟩ := Bool.and_eq_true_iff.1 hin
  rw [gather, if_pos hn, if_pos (of_decide_eq_true ha)]
  rfl

theorem gather_other {st : Gathered} {e : String × MaximumChange} (hin : ofInstalled addons e.1 = false) :
    (gather addons plan user_plan user st e.1 e.2).user_changes = st.user_changes := by
  unfold gather
  by_cases hn : namesAddon e.1 = true
  · rw [if_pos hn, if_neg]
    intro ha
    rw [ofInstalled, hn, decide_eq_true ha] at hin
    cases hin
  · rw [if_neg hn]

theorem mem_gathered {es : List (String × MaximumChange)} {st : Gathered} {f : String}
    (h : f ∈ (es.foldl (fun st e => gather addons plan user_plan user st e.1 e.2) st).user_changes) :
    f ∈ st.user_changes ∨ ∃ e ∈ es, ofInstalled addons e.1 = true ∧ f = addonFieldOf e.1 := by
  induction es generalizing st with
  | nil => exact .inl h
  | cons e es ih =>
    rcases ih h with hst | ⟨e', he', hin, hf⟩
    · cases hin : ofInstalled addons e.1 with
      | true =>
        rw [gather_installed hin] at hst
        rcases Dict.mem_set.1 hst with hf | hst
        · exact .inr ⟨e, List.mem_cons_self, hin, hf⟩
        · exact .inl hst
      | false =>
        rw [gather_other hin] at hst
        exact .inl hst
    · exact .inr ⟨e', List.mem_cons_of_mem e he', hin, hf⟩

theorem get?_gathered_kept {es : List (String × MaximumChange)} {st : Gathered} {f : String} {v : CriterionChange}
    (hst : st.user_changes.get? f = some v)
    (h : ∀ e ∈ es, ofInstalled addons e.1 = true → addonFieldOf e.1 = f → codeChange plan user_plan user e = v) :
    (es.foldl (fun st e => gather addons plan user_plan user st e.1 e.2) st).user_changes.get? f = some v := by
  induction es generalizing st with
  | nil => exact hst
  | cons e es ih =>
    apply ih
    · cases hin : ofInstalled addons e.1 with
      | true =>
        rw [gather_installed hin]
        by_cases hf : addonFieldOf e.1 = f
        · rw [hf, Dict.get?_set_self]
          exact congrArg some (h e List.mem_cons_self hin hf)
        · rw [Dict.get?_set_ne _ _ (Ne.symm hf)]
          exact hst
      | false =>
        rw [gather_other hin]
        exact hst
    · exact fun e' he' => h e' (List.mem_cons_of_mem e he')

theorem get?_gathered {es : List (String × MaximumChange)} {st : Gathered} {k : String} {d : MaximumChange}
    (hk : (k, d) ∈ es) (hin : ofInstalled addons k = true)
    (huniq : ∀ e ∈ es, ofInstalled addons e.1 = true → addonFieldOf e.1 = addonFieldOf k → e = (k, d)) :
    (es.foldl (fun st e => gather addons plan user_plan user st e.1 e.2) st).user_changes.get? (addonFieldOf k) =
      some (codeChange plan user_plan user (k, d)) := by
  induction es generalizing st with
  | nil => exact absurd hk List.not_mem_nil
  | cons e es ih =>
    rw [List.foldl_cons]
    by_cases he : e = (k, d)
    · apply get?_gathered_kept
      · rw [he, gather_installed (e := (k, d)) hin]
        exact Dict.get?_set_self _ _ _
      · intro e' he' hin' hf
        rw [huniq e' (List.mem_cons_of_mem e he') hin' hf]
    · have hkes : (k, d) ∈ es := (List.mem_cons.1 hk).resolve_left (Ne.symm he)
      exact ih hkes fun e' he' => huniq e' (List.mem_cons_of_mem e he')

/-- The pass over a user makes the right calls just when the changes are plain for him. -/
theorem criteriaCalls_iff {data : Dict String MaximumChange} {o : String} (hU : s.users.get? o = some user)
    (hQ : s.plans.get? user.plan = some user_plan) :
    (∃ calls, s.criteriaCalls addons plan data o = .ok (calls.map fun c => (o, c)) ∧
      CallsRight addons plan user_plan user data calls) ↔ CriteriaPlain addons plan user_plan user data := by
  obtain ⟨hchanged, hname⟩ := @foldl_gather addons plan user_plan user data.entries ⟨.empty, false, ""⟩
  have hrun : s.criteriaCalls addons plan data o =
      let st := data.entries.foldl (fun st e => gather addons plan user_plan user st e.1 e.2) ⟨.empty, false, ""⟩
      if st.changed then
        if st.addon_name ∈ addons then .ok [(o, ⟨st.addon_name, st.user_changes⟩)] else .error .typeError
      else .ok [] := by
    rw [criteriaCalls, hU]
    dsimp only
    rw [hQ]
    rfl
  have hmem : ∀ {k}, k ∈ data ↔ ∃ d, (k, d) ∈ data.entries := by
    intro k
    rw [Dict.mem_iff]
    exact exists_congr fun d => Dict.get?_eq_some
  have hgathered := fun f => @mem_gathered addons plan user_plan user data.entries ⟨.empty, false, ""⟩ f
  have hget := fun k d => @get?_gathered addons plan user_plan user data.entries ⟨.empty, false, ""⟩ k d
  rw [hrun]
  generalize data.entries.foldl (fun st e => gather addons plan user_plan user st e.1 e.2) ⟨.empty, false, ""⟩ = st
    at hchanged hname hgathered hget
  dsimp only
  by_cases hany : (data.entries.any fun e => ofInstalled addons e.1) = true
  · rw [hany, Bool.or_true] at hchanged
    obtain ⟨⟨k₀, d₀⟩, hk₀, hin₀⟩ := List.any_eq_true.1 hany
    have hin₀ : ofInstalled addons k₀ = true := hin₀
    have hk₀m : k₀ ∈ data := hmem.2 ⟨d₀, hk₀⟩
    obtain ⟨kl, hkl⟩ : ∃ kl, lastNamed data = some kl := by
      have hne : data.keys.filter namesAddon ≠ [] :=
        List.ne_nil_of_mem (List.mem_filter.2 ⟨Dict.mem_keys.2 hk₀m, (Bool.and_eq_true_iff.1 hin₀).1⟩)
      exact ⟨_, List.getLast?_eq_getLast_of_ne_nil hne⟩
    have haddon : st.addon_name = addonOf kl := by
      rw [hname]
      change ((lastNamed data).map addonOf).getD "" = _
      rw [hkl]
      rfl
    rw [hchanged, if_pos rfl, haddon]
    constructor
    · rintro ⟨calls, hcalls, hright⟩
      by_cases hinst : addonOf kl ∈ addons
      · rw [if_pos hinst] at hcalls
        have hone : calls = [⟨addonOf kl, st.user_changes⟩] := by
          have hmap := congrArg (List.map Prod.snd) (Except.ok.inj hcalls)
          rw [List.map_map] at hmap
          rw [show (Prod.snd ∘ fun c : AddonCall => (o, c)) = id from rfl, List.map_id] at hmap
          exact hmap.symm
        rw [hone] at hright
        have hlast : ∀ k ∈ data, ofInstalled addons k = true → addonOf kl = addonOf k := by
          intro k hk hin
          have hcount := hright.called (addonOf k)
          rw [if_pos ⟨k, hk, hin, rfl⟩] at hcount
          by_contra hne
          rw [List.map_singleton, List.count_singleton] at hcount
          rw [if_neg (by simpa using hne)] at hcount
          cases hcount
        have hone' : ∀ k ∈ data, ofInstalled addons k = true → '@' ∉ afterAt k := by
          intro k hk hin hat
          obtain ⟨d, hd⟩ := hmem.1 hk
          have htold := hright.told _ List.mem_cons_self k d (Dict.get?_eq_some.2 hd) hin (hlast k hk hin).symm
          rcases hgathered _ (Dict.mem_of_get? htold) with hempty | ⟨e, he, -, hf⟩
          · exact absurd hempty (Dict.not_mem_empty _)
          · have hno := at_not_mem_addonFieldOf (k := e.1)
            rw [← hf, String.toList_ofList] at hno
            exact hno hat
        have hchange : ∀ k d, data.get? k = some d → ofInstalled addons k = true →
            codeChange plan user_plan user (k, d) = criterionChange plan user_plan user k d := by
          intro k d hd hin
          have hkm : k ∈ data := Dict.mem_of_get? hd
          have htold := hright.told _ List.mem_cons_self k d hd hin (hlast k hkm hin).symm
          have hfield := hget k d (Dict.get?_eq_some.1 hd) hin (by
            rintro ⟨k', d'⟩ he' hin' hf
            have hk'm : k' ∈ data := hmem.2 ⟨d', he'⟩
            rw [addonFieldOf_of_one (hone' k' hk'm hin'), addonFieldOf_of_one (hone' k hkm hin)] at hf
            have hkk : k' = k := field_injective (Bool.and_eq_true_iff.1 hin').1 (Bool.and_eq_true_iff.1 hin).1
              ((hlast k' hk'm hin').symm.trans (hlast k hkm hin)) (String.ofList_injective hf)
            subst hkk
            have hdd : some d' = some d := (Dict.get?_eq_some.2 he').symm.trans hd
            rw [Option.some.inj hdd])
          rw [addonFieldOf_of_one (hone' k hkm hin)] at hfield
          exact Option.some.inj (hfield.symm.trans htold)
        refine ⟨fun k hk hin k' hk' => ?_, hone', fun k hk hin => ?_, fun k d hd hin => ?_⟩
        · rw [hkl] at hk'
          cases hk'
          exact hlast k hk hin
        · obtain ⟨d, hd⟩ := Dict.mem_iff.1 hk
          exact (change_eq_iff.1 (hchange k d hd hin)).1
        · exact (change_eq_iff.1 (hchange k d hd hin)).2
      · rw [if_neg hinst] at hcalls
        cases hcalls
    · intro hplain
      have hlast : ∀ k ∈ data, ofInstalled addons k = true → addonOf kl = addonOf k :=
        fun k hk hin => hplain.last k hk hin kl hkl
      have hinst : addonOf kl ∈ addons := by
        rw [hlast k₀ hk₀m hin₀]
        exact of_decide_eq_true (Bool.and_eq_true_iff.1 hin₀).2
      rw [if_pos hinst]
      refine ⟨[⟨addonOf kl, st.user_changes⟩], rfl, fun a => ?_, fun c hc k d hd hin _ => ?_, fun c hc f hf => ?_⟩
      · rw [List.map_singleton, List.count_singleton]
        by_cases ha : addonOf kl = a
        · rw [if_pos (by simpa using ha), if_pos ⟨k₀, hk₀m, hin₀, (hlast k₀ hk₀m hin₀).symm.trans ha⟩]
        · rw [if_neg (by simpa using ha), if_neg]
          rintro ⟨k, hk, hin, he⟩
          exact ha ((hlast k hk hin).trans he)
      · rw [List.mem_singleton.1 hc]
        have hkm : k ∈ data := Dict.mem_of_get? hd
        have hfield := hget k d (Dict.get?_eq_some.1 hd) hin (by
          rintro ⟨k', d'⟩ he' hin' hf
          have hk'm : k' ∈ data := hmem.2 ⟨d', he'⟩
          rw [addonFieldOf_of_one (hplain.one k' hk'm hin'), addonFieldOf_of_one (hplain.one k hkm hin)] at hf
          have hkk : k' = k := field_injective (Bool.and_eq_true_iff.1 hin').1 (Bool.and_eq_true_iff.1 hin).1
            ((hlast k' hk'm hin').symm.trans (hlast k hkm hin)) (String.ofList_injective hf)
          subst hkk
          have hdd : some d' = some d := (Dict.get?_eq_some.2 he').symm.trans hd
          rw [Option.some.inj hdd])
        rw [addonFieldOf_of_one (hplain.one k hkm hin)] at hfield
        exact hfield.trans (congrArg some (change_eq_iff.2 ⟨hplain.old k hkm hin, hplain.right k d hd hin⟩))
      · rw [List.mem_singleton.1 hc] at hf ⊢
        rcases hgathered f hf with hempty | ⟨⟨k, d⟩, he, hin, hfk⟩
        · exact absurd hempty (Dict.not_mem_empty _)
        · have hkm : k ∈ data := hmem.2 ⟨d, he⟩
          refine ⟨k, hkm, hin, (hlast k hkm hin).symm, ?_⟩
          rw [hfk]
          exact addonFieldOf_of_one (hplain.one k hkm hin)
  · have hno : ∀ k ∈ data, ofInstalled addons k = true → False := by
      intro k hk hin
      obtain ⟨d, hd⟩ := hmem.1 hk
      exact hany (List.any_eq_true.2 ⟨(k, d), hd, hin⟩)
    rw [Bool.eq_false_iff.2 hany] at hchanged
    rw [hchanged]
    apply iff_of_true
    · refine ⟨[], rfl, fun a => ?_, fun c hc => absurd hc List.not_mem_nil, fun c hc => absurd hc List.not_mem_nil⟩
      rw [if_neg]
      · rfl
      · rintro ⟨k, hk, hin, -⟩
        exact hno k hk hin
    · exact ⟨fun k hk hin => (hno k hk hin).elim, fun k hk hin => (hno k hk hin).elim,
        fun k hk hin => (hno k hk hin).elim, fun k d hd hin => (hno k (Dict.mem_of_get? hd) hin).elim⟩

theorem filter_tagged {α : Type} {l : List String} (hl : l.Nodup) (g : String → List α) {u : String} (hu : u ∈ l) :
    ((l.flatMap fun o => (g o).map fun c => (o, c)).filter fun e => decide (e.1 = u)).map Prod.snd = g u := by
  induction l with
  | nil => exact absurd hu List.not_mem_nil
  | cons v l ih =>
    obtain ⟨hv, hl⟩ := List.nodup_cons.1 hl
    rw [List.flatMap_cons, List.filter_append, List.map_append]
    by_cases he : v = u
    · have hfirst : ((g v).map fun c => (v, c)).filter (fun e => decide (e.1 = u)) = (g v).map fun c => (v, c) := by
        apply List.filter_eq_self.2
        intro e hm
        obtain ⟨c, -, rfl⟩ := List.mem_map.1 hm
        exact decide_eq_true he
      have hrest : (l.flatMap fun o => (g o).map fun c => (o, c)).filter (fun e => decide (e.1 = u)) = [] := by
        apply List.filter_eq_nil_iff.2
        intro e hm hd
        obtain ⟨o, ho, hm⟩ := List.mem_flatMap.1 hm
        obtain ⟨c, -, rfl⟩ := List.mem_map.1 hm
        exact hv (he.trans (of_decide_eq_true hd).symm ▸ ho)
      rw [hfirst, hrest, List.map_nil, List.append_nil, List.map_map, he]
      exact List.map_id _
    · have hfirst : ((g v).map fun c => (v, c)).filter (fun e => decide (e.1 = u)) = [] := by
        apply List.filter_eq_nil_iff.2
        intro e hm hd
        obtain ⟨c, -, rfl⟩ := List.mem_map.1 hm
        exact he (of_decide_eq_true hd)
      rw [hfirst, List.map_nil, List.nil_append]
      exact ih hl ((List.mem_cons.1 hu).resolve_left (Ne.symm he))

theorem criteriaCalls_tagged {data : Dict String MaximumChange} {o : String} {r : List (String × AddonCall)}
    (h : s.criteriaCalls addons plan data o = .ok r) : ∃ calls : List AddonCall, r = calls.map fun c => (o, c) := by
  unfold criteriaCalls at h
  split at h
  · cases h
    exact ⟨[], rfl⟩
  · split at h
    · cases h
      exact ⟨[], rfl⟩
    · dsimp only at h
      split at h
      · split at h
        · cases h
          exact ⟨[_], rfl⟩
        · cases h
      · cases h
        exact ⟨[], rfl⟩

/-- The changes of an edit are routed right just when they are plain for every user below the plan. -/
theorem routesRight_iff (h : Consistent s) (addons : List String) (hP : s.plans.get? plan.name = some plan)
    (data : Dict String MaximumChange) : s.RoutesRight addons plan data ↔
      ∀ u U Q, s.FoundBelow plan.name u → s.users.get? u = some U → s.plans.get? U.plan = some Q →
        CriteriaPlain addons plan Q U data := by
  have hl := h.integrity.linked
  obtain ⟨l, husers⟩ := hl.getUsersByPlanName_total 10000000 (Dict.mem_of_get? hP)
  have hmem : ∀ u, u ∈ l ↔ s.FoundBelow plan.name u := fun u => getUsersByPlanName_mem husers
  have hnodup : l.Nodup := hl.getUsersByPlanName_nodup h.forest.ranked husers
  have hcheck : s.checkHostingPlanCriteriaChanged addons plan data =
      Collect.concatM (s.criteriaCalls addons plan data) l := by
    rw [checkHostingPlanCriteriaChanged, husers]
    rfl
  constructor
  · rintro ⟨log, hlog, -, hright⟩ u U Q hu hU hQ
    rw [hcheck] at hlog
    obtain ⟨g, hg, rfl⟩ := Collect.concatM_inv hlog
    have hparts : ∀ o, ∃ calls : List AddonCall, o ∈ l → g o = calls.map fun c => (o, c) := by
      intro o
      by_cases ho : o ∈ l
      · obtain ⟨calls, hcalls⟩ := criteriaCalls_tagged (hg o ho)
        exact ⟨calls, fun _ => hcalls⟩
      · exact ⟨[], fun hm => absurd hm ho⟩
    choose f hf using hparts
    have hul : u ∈ l := (hmem u).2 hu
    have hflat : l.flatMap g = l.flatMap fun o => (f o).map fun c => (o, c) := List.flatMap_congr hf
    have hone := hright u U Q hu hU hQ
    rw [hflat, filter_tagged hnodup f hul] at hone
    exact (criteriaCalls_iff hU hQ).1 ⟨f u, (hg u hul).trans (congrArg Except.ok (hf u hul)), hone⟩
  · intro hplain
    have hparts : ∀ o, ∃ calls : List AddonCall, o ∈ l → s.criteriaCalls addons plan data o =
        .ok (calls.map fun c => (o, c)) ∧ ∀ U Q, s.users.get? o = some U → s.plans.get? U.plan = some Q →
          CallsRight addons plan Q U data calls := by
      intro o
      by_cases ho : o ∈ l
      · cases hU : s.users.get? o with
        | none =>
          refine ⟨[], fun _ => ⟨?_, fun U Q he => by cases he⟩⟩
          rw [criteriaCalls, hU]
          rfl
        | some U =>
          cases hQ : s.plans.get? U.plan with
          | none =>
            refine ⟨[], fun _ => ⟨?_, fun U' Q' he hQ' => ?_⟩⟩
            · rw [criteriaCalls, hU]
              dsimp only
              rw [hQ]
              rfl
            · cases he
              rw [hQ] at hQ'
              cases hQ'
          | some Q =>
            obtain ⟨calls, hcalls, hright⟩ := (criteriaCalls_iff hU hQ).2 (hplain o U Q ((hmem o).1 ho) hU hQ)
            refine ⟨calls, fun _ => ⟨hcalls, fun U' Q' he hQ' => ?_⟩⟩
            cases he
            rw [hQ] at hQ'
            cases hQ'
            exact hright
      · exact ⟨[], fun hm => absurd hm ho⟩
    choose f hf using hparts
    refine ⟨_, hcheck.trans (Collect.concatM_eq fun o ho => (hf o ho).1), fun e he => ?_, fun u U Q hu hU hQ => ?_⟩
    · obtain ⟨o, ho, he⟩ := List.mem_flatMap.1 he
      obtain ⟨c, -, rfl⟩ := List.mem_map.1 he
      exact (hmem o).1 ho
    · rw [filter_tagged hnodup f ((hmem u).2 hu)]
      exact (hf u ((hmem u).2 hu)).2 U Q hU hQ

def oneChange (field_name : String) (old new : Int) : Dict String MaximumChange :=
  Dict.ofList [(field_name, ⟨.num (.int old), .num (.int new)⟩)]

theorem routesRight_iff_sample : ∃ P, (installed.run sampleCalls).plans.get? "gold" = some P ∧
    ((installed.run sampleCalls).RoutesRight ["mongodb"] P (oneChange "mongodb@size" 7 5) ↔
      ∀ u U Q, (installed.run sampleCalls).FoundBelow P.name u → (installed.run sampleCalls).users.get? u = some U →
        (installed.run sampleCalls).plans.get? U.plan = some Q →
          CriteriaPlain ["mongodb"] P Q U (oneChange "mongodb@size" 7 5)) := by
  have hname : ((installed.run sampleCalls).plans.get? "gold").map Plan.name = some "gold" := by decide +kernel
  obtain ⟨P, hP, he⟩ := Option.map_eq_some_iff.1 hname
  exact ⟨P, hP, routesRight_iff consistent_sample ["mongodb"] (he ▸ hP) (oneChange "mongodb@size" 7 5)⟩

/-- The field of an add-on that is not installed comes last, and there is nothing to call. -/
theorem missing_addon_called : ¬∀ (s : Store) (addons : List String) (plan : Plan) (data : Dict String MaximumChange),
    Consistent s → s.plans.get? plan.name = some plan → s.RoutesRight addons plan data := by
  intro h
  have hname : ((installed.run sampleCalls).plans.get? "gold").map Plan.name = some "gold" := by decide +kernel
  obtain ⟨P, hP, he⟩ := Option.map_eq_some_iff.1 hname
  obtain ⟨log, hlog, -⟩ := h _ ["mongodb"] P
    (Dict.ofList [("mongodb@size", ⟨.num (.int 7), .num (.int 5)⟩), ("redis@size", ⟨.num (.int 7), .num (.int 5)⟩)])
    consistent_sample (he ▸ hP)
  have hrun : ((installed.run sampleCalls).plans.get? "gold").map (fun P =>
      ((installed.run sampleCalls).checkHostingPlanCriteriaChanged ["mongodb"] P
        (Dict.ofList [("mongodb@size", ⟨.num (.int 7), .num (.int 5)⟩),
          ("redis@size", ⟨.num (.int 7), .num (.int 5)⟩)])).isOk) = some false := by
    decide +kernel
  rw [hP, Option.map_some, hlog] at hrun
  cases hrun

end Store
end JXPanel

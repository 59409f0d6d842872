import JXPanel.FormGate

namespace JXPanel
set_option autoImplicit true

/-- What the validators of a form look up. -/
structure FormSession where
  Get : String → List String → String
  db : Store
  isRecordUpdating : Option String
  getUserIPs : Bool → Except String (List String)
  /-- What nginx has against a configuration with these directives. -/
  testDirectives : JsVal → Option String

/-- The bounds of a number, as far as they are given. -/
structure IntOptions where
  gt : JsVal := .undefined
  gte : JsVal := .undefined
  lt : JsVal := .undefined
  lte : JsVal := .undefined

namespace FormSession

def accepted : Obj := Dict.empty.set "result" (.bool true)

def refused (e : FormSession) (label : String) (args : List String) : Obj :=
  (Dict.empty.set "result" (.bool false)).set "msg" (.str (e.Get label args))

def answer (controls res : Obj) : Js (Obj × Obj) := .ok (res, controls)

def given (v : JsVal) : Bool := v.truthy || JsVal.strictEq v (.num (.int 0))

/-- The bounds that a message names, and whether the number breaks one. -/
def bounds (e : FormSession) (o : IntOptions) (parsed : JsVal) : List String × Bool :=
  let equal := " (" ++ e.Get "or" [] ++ " " ++ e.Get "equal)" []
  let all : List (JsVal × String × String × Bool) :=
    [(o.gt, "greater than", "", parsed.le o.gt), (o.gte, "greater than", equal, parsed.lt o.gte),
      (o.lt, "less than", "", o.lt.le parsed), (o.lte, "less than", equal, o.lte.lt parsed)]
  let used := all.filter fun b => given b.1
  (used.map fun b => e.Get b.2.1 [] ++ " " ++ b.1.toKey ++ b.2.2.1, used.any fun b => b.2.2.2)

/-- `Int.validate` -/
def Int (e : FormSession) (options : Option IntOptions) : Validator := fun val controls _ =>
  answer controls <|
    if !val.truthy && (decide (val.toKey ≠ "0") || JsVal.strictEq val (.str "")) then accepted
    else if val.parseInt = .nan || decide (val.toKey = "") || !val.toKey.toList.all Char.isDigit then
      e.refused "ValueInvalidInteger" []
    else match options with
      | none => accepted
      | some o =>
        match e.bounds o (.num val.parseInt) with
        | (params, true) => e.refused "ValueShouldBe" [(" " ++ e.Get "and" [] ++ " ").intercalate params]
        | (_, false) => accepted

/-- `Boolean.validate` -/
def Boolean (e : FormSession) : Validator := fun val controls _ =>
  match val with
  | .undefined => .error .typeError
  | .null => .error .typeError
  | val =>
    answer controls <|
      if String.ofList (val.toKey.toList.map Char.toLower) ∈ ["1", "0", "true", "false"] then accepted
      else e.refused "ValueInvalidBoolean" []

/-- `Plan.validate` -/
def Plan (e : FormSession) : Validator := fun val controls _ =>
  answer controls <| if val.toKey ∈ e.db.plans then e.refused "PlanAlreadyExists" [] else accepted

/-- One value, or those of a list. -/
def listed : JsVal → List JsVal
  | .arr l => l
  | val => [val]

/-- `IPAdresses.validate`, of one address or of some. -/
def IPAdresses (e : FormSession) (v6 : Bool) : Validator := fun val controls _ =>
  answer controls <|
    match e.getUserIPs v6 with
    | .error err => e.refused err []
    | .ok ips =>
      if (listed val).all fun v => ips.any fun ip => JsVal.strictEq (.str ip) v then accepted
      else e.refused "ValueInvalid" []

/-- What nginx says of the directives that were submitted for a plan there is. -/
def testConfig (e : FormSession) (controls : Obj) : Obj :=
  match e.isRecordUpdating with
  | none => e.refused "PlanInvalid" []
  | some plan_name =>
    if plan_name ∈ e.db.plans then
      match e.testDirectives (prop controls "plan_nginx_directives") with
      | none => accepted
      | some err =>
        (Dict.empty.set "result" (.bool false)).set "msg" (.str (e.Get "NginxDirectivesInvalid" [] ++ " " ++ err))
    else e.refused "PlanInvalid" []

/-- `NginxDirectives.validate` -/
def NginxDirectives (e : FormSession) : Validator := fun val controls _ =>
  if !val.truthy then answer controls accepted
  else match val with
    | .str s => answer controls <| if s.toList.all jsSpace then accepted else e.testConfig controls
    | _ => .error .typeError

/-- A number that is not negative. -/
def natural : Option IntOptions := some { gte := .num (.int 0) }

/-- The maximums of a plan that are given to the add-ons and the system. -/
def maximum (e : FormSession) (name : String) : Control :=
  { name, definesMax := true, validation := [e.Int natural] }

def flag (e : FormSession) (name : String) : Control := { name, validation := [e.Boolean] }

/-- The controls of the form for plans, without the lines between them. -/
def addPlan (e : FormSession) : List Control :=
  [{ name := "plan_name", required := true, dbName := .alias "name", validation := [e.Plan] },
    { name := "user_owner_id", method := false, dbName := .alias "owner" }, { name := "suspended" },
    e.maximum "plan_disk_space", e.maximum "plan_traffic",
    { name := "plan_max_domains", required := true, dbName := .alias "maxDomainCount", validation := [e.Int natural] },
    { name := "plan_max_users", required := true, dbName := .alias "maxUserCount", validation := [e.Int natural] },
    e.maximum "plan_max_plans", e.maximum "plan_memory", e.maximum "plan_cpu",
    { name := "plan_cpu_interval", validation := [e.Int natural] },
    e.flag "plan_custom_socket", e.flag "plan_sys_exec", e.flag "plan_local_native_modules", e.flag "plan_ssh",
    { name := "plan_nginx_directives", validation := [e.NginxDirectives] },
    { name := "plan_ipv4_pool", required := true, required_label := some "ValueRequiredAtLeastOne",
      validation := [e.IPAdresses false] },
    { name := "plan_ipv6_pool", required := true, required_label := some "ValueRequiredAtLeastOne",
      validation := [e.IPAdresses true] }]

end FormSession

namespace ActiveForm

/-- A field of the page gets an id when it is met first. -/
def register (f : ActiveForm) (newId input_id : String) : ActiveForm :=
  match f.fakeIdsReversed.get? input_id with
  | none =>
    { f with fakeIds := f.fakeIds.set newId input_id, fakeIdsReversed := f.fakeIdsReversed.set input_id newId }
  | some _ => f

/-- The page of a form: its controls that have an input and are not left out, each with a new id. -/
def render (shown : Control → Bool) (f : ActiveForm) : List (Control × String) → ActiveForm
  | [] => f
  | (ctrl, newId) :: rest =>
    render shown (if ctrl.method && shown ctrl then f.register newId ctrl.name else f) rest

/-- Ids and fields belong together, and only controls with an input have one. -/
structure Paired (f : ActiveForm) : Prop where
  pair : ∀ fld o, f.fakeIds.get? fld = some o ↔ f.fakeIdsReversed.get? o = some fld
  shown : ∀ fld o ctrl, f.fakeIds.get? fld = some o → f.control o = some ctrl → ctrl.method = true

variable {f : ActiveForm} {newId input_id o k : String} {ctrl : Control} {controls cs json maxs : Obj}
  {Get : String → String}

theorem register_controls (f : ActiveForm) (newId input_id : String) :
    (f.register newId input_id).controls = f.controls := by
  unfold register
  split
  · rfl
  · rfl

/-- A new id leaves ids and fields paired. -/
theorem Paired.register (hf : f.Paired) (hnew : newId ∉ f.fakeIds) (hc : f.control input_id = some ctrl)
    (hmethod : ctrl.method = true) : (f.register newId input_id).Paired := by
  unfold ActiveForm.register
  cases hr : f.fakeIdsReversed.get? input_id with
  | some fld => exact hf
  | none =>
    refine ⟨fun fld o => ?_, fun fld o ctrl' hget hc' => ?_⟩
    · dsimp only
      rw [Dict.get?_set, Dict.get?_set]
      by_cases hfld : fld = newId
      · rw [if_pos hfld]
        by_cases ho : o = input_id
        · rw [if_pos ho]
          exact iff_of_true (by rw [ho]) (by rw [hfld])
        · rw [if_neg ho]
          refine iff_of_false (fun he => ho (Option.some.inj he).symm) fun hold => ?_
          rw [← hf.pair, hfld] at hold
          exact hnew (Dict.mem_of_get? hold)
      · rw [if_neg hfld]
        by_cases ho : o = input_id
        · rw [if_pos ho]
          refine iff_of_false (fun hold => ?_) fun he => hfld (Option.some.inj he).symm
          rw [hf.pair, ho, hr] at hold
          cases hold
        · rw [if_neg ho]
          exact hf.pair fld o
    · dsimp only at hget
      rw [Dict.get?_set] at hget
      split at hget
      · cases hget
        cases hc.symm.trans hc'
        exact hmethod
      · exact hf.shown fld o ctrl' hget hc'

/-- On a page that is rendered with new ids the ids and the fields belong together. -/
theorem Paired.render {shown : Control → Bool} {l : List (Control × String)} (hf : f.Paired)
    (hids : (l.map Prod.snd).Nodup) (hnew : ∀ e ∈ l, e.2 ∉ f.fakeIds) (hl : ∀ e ∈ l, f.control e.1.name = some e.1) :
    (f.render shown l).Paired := by
  induction l generalizing f with
  | nil => exact hf
  | cons e l ih =>
    obtain ⟨hfirst, hrest⟩ := List.nodup_cons.1 hids
    have hlater : ∀ e' ∈ l, e'.2 ∉ f.fakeIds := fun e' he' => hnew e' (List.mem_cons_of_mem e he')
    have hcontrols : ∀ e' ∈ l, f.control e'.1.name = some e'.1 := fun e' he' => hl e' (List.mem_cons_of_mem e he')
    rw [ActiveForm.render]
    split
    · next hshown =>
      apply ih (hf.register (hnew e List.mem_cons_self) (hl e List.mem_cons_self) (Bool.and_eq_true_iff.1 hshown).1) hrest
      · intro e' he' hm
        unfold ActiveForm.register at hm
        split at hm
        · rcases Dict.mem_set.1 hm with heq | hm
          · exact hfirst (heq ▸ List.mem_map_of_mem he')
          · exact hlater e' he' hm
        · exact hlater e' he' hm
      · intro e' he'
        rw [control, register_controls]
        exact hcontrols e' he'
    · exact ih hf hrest hlater hcontrols

/-- No id of the page is the name of a field. -/
def Apart (f : ActiveForm) : Prop := ∀ fld ∈ f.fakeIds, fld ∉ f.fakeIdsReversed

/-- An id that not every object has is looked up on the page. -/
theorem fieldOf_eq {fld : String} (hown : fld ∉ inheritedNames) (h : f.fieldOf fld = some o) :
    f.fakeIds.get? fld = some o := by
  rcases fieldOf_cases h with ⟨-, hget⟩ | ⟨-, hin, -⟩
  · exact hget
  · exact absurd hin hown

theorem translated_known {flds : List String} (hown : ∀ fld ∈ flds, fld ∉ inheritedNames)
    (h : f.translateFakeIds flds controls = (cs, none)) : ∀ fld ∈ flds, fld ∈ f.fakeIds := by
  intro fld hfld
  rcases translateFakeIds_total_iff.1 (congrArg Prod.snd h) fld hfld with ⟨o, -, hget⟩ | ⟨-, hin⟩
  · exact Dict.mem_of_get? hget
  · exact absurd hin (hown fld hfld)

/-- What neither is an id that is gone through nor the field of one stays. -/
theorem translateFakeIds_frame {flds : List String} (h : f.translateFakeIds flds controls = (cs, none)) (hk : k ∉ flds)
    (hfield : ∀ fld ∈ flds, f.fieldOf fld ≠ some k) : cs.get? k = controls.get? k := by
  induction flds generalizing controls with
  | nil =>
    cases h
    rfl
  | cons fl flds ih =>
    obtain ⟨hfl, hflds⟩ := List.forall_mem_cons.1 hfield
    obtain ⟨hne, hrest⟩ := not_or.1 (mt List.mem_cons.2 hk)
    rw [translateFakeIds] at h
    cases hname : f.fieldOf fl with
    | none =>
      rw [hname] at h
      cases h
    | some name =>
      rw [hname] at h hfl
      rw [ih h hrest hflds, Dict.get?_erase_ne _ hne, Dict.get?_set_ne _ _ fun he => hfl (congrArg some he.symm)]

/-- Each value that was submitted is found under the name of its field. -/
theorem translateFakeIds_get? {flds : List String} {fld : String} {v : JsVal} (hp : f.Paired) (ha : f.Apart)
    (hown : ∀ fld ∈ flds, fld ∉ inheritedNames) (hflds : flds.Nodup) (h : f.translateFakeIds flds controls = (cs, none)) (hfld : fld ∈ flds)
    (hget : f.fakeIds.get? fld = some o) (hv : controls.get? fld = some v) : cs.get? o = some v := by
  induction flds generalizing controls with
  | nil => exact absurd hfld List.not_mem_nil
  | cons fl flds ih =>
    obtain ⟨hfirst, hnodup⟩ := List.nodup_cons.1 hflds
    have hknown := translated_known hown h
    obtain ⟨hfl, hlater⟩ := List.forall_mem_cons.1 hown
    have hnamed : ∀ {fld' name : String}, fld' ∈ f.fakeIds → f.fakeIds.get? fl = some name → fld' ≠ name := by
      intro fld' name hmem hname he
      exact ha fld' hmem (he ▸ Dict.mem_of_get? ((hp.pair fl name).1 hname))
    rw [translateFakeIds] at h
    cases hfound : f.fieldOf fl with
    | none =>
      rw [hfound] at h
      cases h
    | some name =>
      have hname := fieldOf_eq hfl hfound
      rw [hfound] at h
      dsimp only at h
      rcases List.mem_cons.1 hfld with rfl | hrest
      · cases hname.symm.trans hget
        rw [translateFakeIds_frame h, Dict.get?_erase_ne, Dict.get?_set_self, prop, hv, Option.getD_some]
        · exact fun he => hnamed (hknown fld List.mem_cons_self) hname he.symm
        · exact fun hm => hnamed (hknown _ (List.mem_cons_of_mem fld hm)) hname rfl
        · intro fld' hm hget'
          have hpage := fieldOf_eq (hlater fld' hm) hget'
          have hsame : fld' = fld := Option.some.inj (((hp.pair fld' o).1 hpage).symm.trans ((hp.pair fld o).1 hname))
          exact hfirst (hsame ▸ hm)
      · apply ih hlater hnodup h hrest
        have hne : fld ≠ fl := fun he => hfirst (he ▸ hrest)
        rw [Dict.get?_erase_ne _ hne, Dict.get?_set_ne _ _ (hnamed (hknown fld hfld) hname), hv]

/-- A form that is refused names, by their ids on the page, just the fields that were filled in and do not
pass, each with the value that was submitted for it. -/
theorem refused_ids_iff {arr : List Obj} (hf : f.Plain) (hp : f.Paired) (ha : f.Apart)
    (hown : ∀ fld ∈ controls, fld ∉ inheritedNames) (h : f.sessionApply Get controls = .ok (.messages arr)) : arr ≠ [] ∧ ∃ cs,
    (∀ fld v, controls.get? fld = some v → ∃ o, f.fakeIds.get? fld = some o ∧ cs.get? o = some v) ∧
    ∀ id, (∃ m ∈ arr, prop m "id" = id) ↔ ∃ fld ∈ controls, ∃ o ctrl, id = .str fld ∧
      f.fakeIds.get? fld = some o ∧ f.control o = some ctrl ∧ ¬ctrl.Passes o cs := by
  unfold sessionApply at h
  rcases hrun : f.translateFakeIds controls.keys controls with ⟨cs, _ | err⟩
  · rw [hrun] at h
    obtain ⟨⟨c₂, ms⟩, hadd, hnext⟩ := Collect.bind_ok.1 h
    obtain ⟨rfl, hnames⟩ := sessionAdd_names_iff hf hadd
    have hfakeId : ∀ {fld o : String}, f.fakeIds.get? fld = some o → f.fakeId o = .str fld := by
      intro fld o hget
      rw [fakeId, (hp.pair fld o).1 hget]
      rfl
    have hvalues : ∀ fld v, controls.get? fld = some v → ∃ o, f.fakeIds.get? fld = some o ∧ c₂.get? o = some v := by
      intro fld v hv
      have hfld : fld ∈ controls.keys := Dict.mem_keys.2 (Dict.mem_of_get? hv)
      obtain ⟨o, hget⟩ := Dict.mem_iff.1 (translated_known hown hrun fld hfld)
      exact ⟨o, hget, translateFakeIds_get? hp ha hown controls.keys_nodup hrun hfld hget hv⟩
    dsimp only at hnext
    split at hnext
    · next hsome =>
      cases hnext
      refine ⟨hsome, c₂, hvalues, fun id => (hnames id).trans ?_⟩
      constructor
      · rintro ⟨o, ho, ctrl, hc, hfails, rfl⟩
        obtain ⟨-, fld, hfld, hfound⟩ := translated_name hrun (Dict.mem_keys.1 ho)
        have hget := fieldOf_eq (hown fld hfld) hfound
        exact ⟨fld, hfld, o, ctrl, hfakeId hget, hget, hc, hfails⟩
      · rintro ⟨fld, hfld, o, ctrl, rfl, hget, hc, hfails⟩
        obtain ⟨v, hv⟩ := Dict.mem_iff.1 hfld
        obtain ⟨o', hget', hv'⟩ := hvalues fld v hv
        cases hget.symm.trans hget'
        exact ⟨o, Dict.mem_keys.2 (Dict.mem_of_get? hv'), ctrl, hc, hfails, (hfakeId hget).symm⟩
    · obtain ⟨⟨json₀, maxs₀, cnt⟩, -, hlast⟩ := Collect.bind_ok.1 hnext
      dsimp only at hlast
      split at hlast
      · cases hlast
      · cases hlast
  · rw [hrun] at h
    cases h

/-- The fields that are collected are those of controls with an input, or named like what every object has, or of
controls with a hidden value. -/
theorem collected_fields (hf : f.Plain) (hp : f.Paired)
    (h : f.sessionApply Get controls = .ok (.collected json maxs cs)) (hk : k ∈ json) :
    (∃ ctrl ∈ f.controls, (ctrl.method = true ∨ ∃ fld ∈ inheritedNames, ctrl.name = inheritedText fld) ∧
      ctrl.definesMax = false ∧ ctrl.field = some k) ∨
      ∃ ctrl ∈ f.controls, ctrl.name = k ∧ ctrl.hiddenValue.isSome := by
  obtain ⟨v, hv⟩ := Dict.mem_iff.1 hk
  obtain ⟨hrun, -⟩ := sessionApply_collected hf h
  rcases (collected_checked hf h).1 k v hv with ⟨o, ctrl, hstores, hmax, -⟩ | ⟨ctrl, hmem, hname, hhidden, -⟩
  · obtain ⟨-, fld, -, hget⟩ := translated_name hrun hstores.submitted
    obtain ⟨hmem, hname⟩ := control_spec hstores.control
    refine .inl ⟨ctrl, hmem, ?_, hmax, hstores.field⟩
    rcases fieldOf_cases hget with ⟨-, hpage⟩ | ⟨-, hin, rfl⟩
    · exact .inl (hp.shown fld o ctrl hpage hstores.control)
    · exact .inr ⟨fld, hin, hname⟩
  · exact .inr ⟨ctrl, hmem, hname, by rw [hhidden]; rfl⟩

end ActiveForm

/-- What is collected, with the two values that are looked up besides. -/
def ActiveForm.submission (form : RecordForm) (json planMaximums controls : Obj) : Submission :=
  { form, json, planMaximums, person_password := prop controls "person_password"
    person_username_ok := prop controls "person_username_ok" }

/-- Controls that add-ons bring into the form for plans, none with a hidden value. -/
def AddonControls (addons : List Control) : Prop :=
  ∀ ctrl ∈ addons, ctrl.Plain ∧ ctrl.definesMax = true ∧ ctrl.dbName = .same ∧ ctrl.hiddenValue = none ∧
    '@' ∈ ctrl.name.toList

namespace FormSession
variable {e : FormSession} {controls cs json maxs res : Obj} {val : JsVal} {o k : String} {addons : List Control}
  {f : ActiveForm} {Get : String → String}

theorem id_not_mem_accepted : "id" ∉ accepted := by decide

theorem id_not_mem_refused (e : FormSession) (label : String) (args : List String) : "id" ∉ e.refused label args := by
  intro hm
  have hkeys : "id" ∈ ["result", "msg"] := hm
  exact absurd hkeys (by decide)

/-- An answer that leaves the values alone and comes from the two kinds. -/
theorem plain_answer (h : answer controls res = .ok (cs, json)) (hres : "id" ∉ res) : json = controls ∧ "id" ∉ cs := by
  cases h
  exact ⟨rfl, hres⟩

theorem plain_int (e : FormSession) (options : Option IntOptions) : Validator.Plain (e.Int options) := by
  intro val controls o res controls' h
  apply plain_answer h
  split
  · exact id_not_mem_accepted
  · split
    · exact id_not_mem_refused _ _ _
    · split
      · exact id_not_mem_accepted
      · split
        · exact id_not_mem_refused _ _ _
        · exact id_not_mem_accepted

theorem plain_boolean (e : FormSession) : Validator.Plain e.Boolean := by
  intro val controls o res controls' h
  unfold Boolean at h
  split at h
  · cases h
  · cases h
  · apply plain_answer h
    split
    · exact id_not_mem_accepted
    · exact id_not_mem_refused _ _ _

theorem plain_plan (e : FormSession) : Validator.Plain e.Plan := by
  intro val controls o res controls' h
  apply plain_answer h
  split
  · exact id_not_mem_refused _ _ _
  · exact id_not_mem_accepted

theorem plain_ipAdresses (e : FormSession) (v6 : Bool) : Validator.Plain (e.IPAdresses v6) := by
  intro val controls o res controls' h
  apply plain_answer h
  split
  · exact id_not_mem_refused _ _ _
  · split
    · exact id_not_mem_accepted
    · exact id_not_mem_refused _ _ _

theorem id_not_mem_testConfig (e : FormSession) (controls : Obj) : "id" ∉ e.testConfig controls := by
  unfold testConfig
  split
  · exact id_not_mem_refused _ _ _
  · split
    · split
      · exact id_not_mem_accepted
      · intro hm
        have hkeys : "id" ∈ ["result", "msg"] := hm
        exact absurd hkeys (by decide)
    · exact id_not_mem_refused _ _ _

theorem plain_nginxDirectives (e : FormSession) : Validator.Plain e.NginxDirectives := by
  intro val controls o res controls' h
  unfold NginxDirectives at h
  split at h
  · exact plain_answer h id_not_mem_accepted
  · split at h
    · apply plain_answer h
      split
      · exact id_not_mem_accepted
      · exact id_not_mem_testConfig e controls
    · cases h

/-- Every control of the form for plans has one validator at most, and it is plain. -/
theorem plain_addPlan (e : FormSession) : ∀ ctrl ∈ e.addPlan, ctrl.Plain := by
  have hone : ∀ {valid : Validator}, Validator.Plain valid → ∀ v ∈ [valid], Validator.Plain v := by
    intro valid hv v hm
    rw [List.mem_singleton.1 hm]
    exact hv
  have hnone : ∀ v ∈ ([] : List Validator), Validator.Plain v := fun v hm => absurd hm List.not_mem_nil
  unfold addPlan
  simp only [List.forall_mem_cons]
  exact ⟨hone e.plain_plan, hnone, hnone, hone (e.plain_int _), hone (e.plain_int _), hone (e.plain_int _),
    hone (e.plain_int _), hone (e.plain_int _), hone (e.plain_int _), hone (e.plain_int _), hone (e.plain_int _),
    hone e.plain_boolean, hone e.plain_boolean, hone e.plain_boolean, hone e.plain_boolean, hone e.plain_nginxDirectives,
    hone (e.plain_ipAdresses _), hone (e.plain_ipAdresses _), fun ctrl hm => absurd hm List.not_mem_nil⟩

/-- A value that passes as a natural number and is not empty is written with digits. -/
theorem digits_of_natural (hval : val.truthy = true) (h : e.Int natural val controls o = .ok (res, cs))
    (hres : (prop res "result").truthy = true) : AllDigits val.toKey := by
  have hrefused : ∀ label args, (prop (e.refused label args) "result").truthy = false := fun _ _ => rfl
  unfold Int answer at h
  rw [hval] at h
  cases h
  simp only [Bool.not_true, Bool.false_and, Bool.false_eq_true, if_false] at hres
  split at hres
  · rw [hrefused] at hres
    cases hres
  · next hdigits =>
    simp only [Bool.or_eq_true, decide_eq_true_eq, Bool.not_eq_true', not_or, Bool.not_eq_false] at hdigits
    obtain ⟨⟨-, hne⟩, hall⟩ := hdigits
    exact ⟨hne, List.all_eq_true.1 hall⟩

theorem replaceAt_of_not_mem {cs : List Char} (h : '&' ∉ cs) : replaceAt cs = cs := by
  induction cs with
  | nil => rfl
  | cons c cs ih =>
    have hc : c ≠ '&' := fun he => h (he ▸ List.mem_cons_self)
    rw [replaceAt, ih fun hm => h (List.mem_cons_of_mem c hm)]
    rintro rest ⟨⟩
    exact absurd rfl hc

/-- What is read of a value without `&` is the same text. -/
theorem toKey_untangled {w : JsVal} (hval : '&' ∉ val.toKey.toList) (h : untangled val = .ok w) : w.toKey = val.toKey := by
  cases val with
  | undefined => cases h
  | null => cases h
  | bool b =>
    cases h
    rfl
  | num n =>
    cases h
    rfl
  | str s =>
    have hs : '&' ∉ s.toList := hval
    cases h
    change String.ofList (replaceAt s.toList) = s
    rw [replaceAt_of_not_mem hs, String.ofList_toList]
  | arr l =>
    cases h
    rfl
  | obj fs =>
    change (if (prop (JsVal.obj fs).toObj "trim").truthy = true then _ else _) = _ at h
    split at h
    · cases h
    · cases h
      rfl

/-- A count that is kept in a record: a natural number, or one beyond all numbers. -/
def Counted (v : JsVal) : Prop := v = .num .posInf ∨ ∃ n : Nat, v = .num (.int n)

theorem counted_ofNat (n : Nat) : Counted (.num (.ofNat n)) := by
  have hrounded : ∀ (c : Prop) [Decidable c] (m : Nat), Counted (.num (if c then .int m else .posInf)) := by
    intro c _ m
    by_cases hc : c
    · rw [if_pos hc]
      exact .inr ⟨m, rfl⟩
    · rw [if_neg hc]
      exact .inl rfl
  unfold JsNum.ofNat
  split
  · exact .inr ⟨n, rfl⟩
  · apply hrounded

theorem counted_of_digits {w : JsVal} (h : AllDigits w.toKey) : Counted (.num w.parseInt) := by
  have hparse : w.parseInt = (JsVal.str w.toKey).parseInt := rfl
  rw [hparse, h.parseInt]
  exact counted_ofNat _

theorem counted_natural {w : JsVal} (hvalue : hasValue val = true)
    (hpass : ∃ res, e.Int natural val controls o = .ok (res, controls) ∧ (prop res "result").truthy = true)
    (hw : untangled val = .ok w) : Counted (.num w.parseInt) := by
  have htruthy : val.truthy = true := by
    unfold hasValue at hvalue
    split at hvalue
    · cases hvalue
    · exact hvalue
  obtain ⟨res, hres, htrue⟩ := hpass
  have hdigits := digits_of_natural htruthy hres htrue
  apply counted_of_digits
  rw [toKey_untangled (fun hm => absurd (hdigits.2 '&' hm) (by decide)) hw]
  exact hdigits

/-- What is empty and can be read stands for no number, or for zero. -/
theorem parseInt_empty {w : JsVal} (hvalue : hasValue val = false) (hw : untangled val = .ok w) :
    w.parseInt = .nan ∨ w.parseInt = .int 0 := by
  cases val with
  | undefined => cases hw
  | null => cases hw
  | bool b =>
    cases hw
    cases b with
    | false => exact .inl rfl
    | true => cases hvalue
  | num n =>
    cases hw
    cases n with
    | int m =>
      have hzero : m = 0 := by
        by_contra hne
        have htrue : hasValue (.num (.int m)) = true := decide_eq_true hne
        cases hvalue.symm.trans htrue
      rw [hzero]
      exact .inr rfl
    | nan => exact .inl rfl
    | posInf => cases hvalue
    | negInf => cases hvalue
  | str s =>
    cases hw
    have hempty : s = "" := by
      by_contra hne
      have htrue : hasValue (.str s) = true := decide_eq_true hne
      cases hvalue.symm.trans htrue
    rw [hempty]
    exact .inl rfl
  | arr l =>
    cases hw
    cases l with
    | nil => exact .inl rfl
    | cons v l => cases hvalue
  | obj fs => cases hvalue

/-- A maximum that passes is a count, unless it is left open. -/
theorem maximumOf_natural {w : JsVal}
    (hpass : ∃ res, e.Int natural val controls o = .ok (res, controls) ∧ (prop res "result").truthy = true)
    (hw : untangled val = .ok w) : ActiveForm.maximumOf w = defaultMaximum ∨ Counted (ActiveForm.maximumOf w) := by
  unfold ActiveForm.maximumOf
  split
  · exact .inl rfl
  · next hnan =>
    right
    cases hvalue : hasValue val with
    | true => exact counted_natural hvalue hpass hw
    | false =>
      rw [(parseInt_empty hvalue hw).resolve_left hnan]
      exact .inr ⟨0, rfl⟩

/-! The form for plans. -/

/-- The limits of a plan that are read as counts, by the names of their controls. -/
def counts : List (String × String) := [("maxUserCount", "plan_max_users"), ("maxDomainCount", "plan_max_domains")]

def countControl (e : FormSession) (k name : String) : Control :=
  { name, required := true, dbName := .alias k, validation := [e.Int natural] }

theorem addPlan_field (e : FormSession) : ∀ ctrl ∈ e.addPlan, ctrl.method = true → ctrl.definesMax = false →
    ctrl.field = some k → k ∈ RecordForm.addPlan.fields := by
  have hall : (e.addPlan.all fun ctrl => !ctrl.method || ctrl.definesMax ||
      ctrl.field.all fun k => decide (k ∈ RecordForm.addPlan.fields)) = true := rfl
  intro ctrl hm hmethod hmax hfield
  have hone := List.all_eq_true.1 hall ctrl hm
  rw [hmethod, hmax, hfield] at hone
  exact of_decide_eq_true hone

theorem addPlan_shown (e : FormSession) : ∀ ctrl ∈ e.addPlan, ctrl.hiddenValue = none := by
  have hall : (e.addPlan.all fun ctrl => ctrl.hiddenValue.isNone) = true := rfl
  exact fun ctrl hm => Option.isNone_iff_eq_none.1 (List.all_eq_true.1 hall ctrl hm)

theorem addPlan_named (e : FormSession) : ∀ ctrl ∈ e.addPlan, '@' ∉ ctrl.name.toList ∧ '[' ∉ ctrl.name.toList := by
  have hnames : e.addPlan.map Control.name = ["plan_name", "user_owner_id", "suspended", "plan_disk_space",
    "plan_traffic", "plan_max_domains", "plan_max_users", "plan_max_plans", "plan_memory", "plan_cpu",
    "plan_cpu_interval", "plan_custom_socket", "plan_sys_exec", "plan_local_native_modules", "plan_ssh",
    "plan_nginx_directives", "plan_ipv4_pool", "plan_ipv6_pool"] := rfl
  intro ctrl hm
  have hname : ctrl.name ∈ e.addPlan.map Control.name := List.mem_map_of_mem hm
  rw [hnames] at hname
  revert hname
  generalize ctrl.name = name
  revert name
  decide

theorem addPlan_count (e : FormSession) : ∀ kn ∈ counts, ∀ ctrl,
    ctrl ∈ e.addPlan ∧ (ctrl.field = some kn.1 ∨ ctrl.name = kn.2) ↔ ctrl = e.countControl kn.1 kn.2 := by
  have hfilter : ∀ kn ∈ counts, (e.addPlan.filter fun ctrl => decide (ctrl.field = some kn.1 ∨ ctrl.name = kn.2)) =
      [e.countControl kn.1 kn.2] := by
    intro kn hkn
    simp only [counts, List.mem_cons, List.not_mem_nil, or_false] at hkn
    rcases hkn with rfl | rfl
    · rfl
    · rfl
  intro kn hkn ctrl
  refine Iff.trans ?_ List.mem_singleton
  rw [← hfilter kn hkn, List.mem_filter, decide_eq_true_iff]

theorem addPlan_maximum (e : FormSession) : ∀ ctrl ∈ e.addPlan, ctrl.definesMax = true →
    ctrl = e.maximum ctrl.name := by
  have hfilter : (e.addPlan.filter fun ctrl => ctrl.definesMax) = (["plan_disk_space", "plan_traffic",
    "plan_max_plans", "plan_memory", "plan_cpu"].map e.maximum) := rfl
  intro ctrl hm hmax
  have hmem : ctrl ∈ e.addPlan.filter fun ctrl => ctrl.definesMax := List.mem_filter.2 ⟨hm, hmax⟩
  rw [hfilter] at hmem
  obtain ⟨name, -, rfl⟩ := List.mem_map.1 hmem
  rfl

theorem plan_plain (hc : f.controls = e.addPlan ++ addons) (hadd : AddonControls addons) : f.Plain := by
  intro ctrl hm
  rw [hc] at hm
  rcases List.mem_append.1 hm with hm | hm
  · exact e.plain_addPlan ctrl hm
  · exact (hadd ctrl hm).1

theorem planJson_count {kn : String × String} (hkn : kn ∈ counts) :
    prop (Panel.planJson json) kn.1 = .num (prop json kn.1).parseInt := by
  simp only [counts, List.mem_cons, List.not_mem_nil, or_false] at hkn
  rcases hkn with rfl | rfl
  · rw [prop, get?_planJson_maxUserCount]
    rfl
  · rw [prop, Panel.planJson, Dict.get?_set_self]
    rfl

/-- What is stored as a count comes from its control in the form for plans. -/
theorem stores_count {kn : String × String} {v : JsVal} {ctrl : Control} (hc : f.controls = e.addPlan ++ addons)
    (hadd : AddonControls addons) (hkn : kn ∈ counts) (hs : f.Stores cs kn.1 v o ctrl) (hmax : ctrl.definesMax = false) :
    ctrl = e.countControl kn.1 kn.2 ∧ o = kn.2 := by
  obtain ⟨hm, rfl⟩ := ActiveForm.control_spec hs.control
  rw [hc] at hm
  rcases List.mem_append.1 hm with hm | hm
  · have heq := (e.addPlan_count kn hkn ctrl).1 ⟨hm, .inl hs.field⟩
    exact ⟨heq, by rw [heq]; rfl⟩
  · cases hmax.symm.trans (hadd ctrl hm).2.1

/-- The form for plans finds the control of a count, whatever add-ons bring into it. -/
theorem control_count {kn : String × String} (hc : f.controls = e.addPlan ++ addons) (hadd : AddonControls addons)
    (hkn : kn ∈ counts) : f.control kn.2 = some (e.countControl kn.1 kn.2) := by
  have hown : e.countControl kn.1 kn.2 ∈ e.addPlan := ((e.addPlan_count kn hkn _).2 rfl).1
  obtain ⟨ctrl, hfound⟩ := ActiveForm.control_of_mem (hc ▸ List.mem_append_left addons hown)
  obtain ⟨hm, hname⟩ := ActiveForm.control_spec hfound
  refine hfound.trans (congrArg some ?_)
  rw [hc] at hm
  rcases List.mem_append.1 hm with hm | hm
  · exact (e.addPlan_count kn hkn ctrl).1 ⟨hm, .inr hname⟩
  · have hat := (hadd ctrl hm).2.2.2.2
    rw [hname] at hat
    exact absurd hat (e.addPlan_named _ hown).1

theorem inheritedText_bracket : ∀ fld ∈ inheritedNames, '[' ∈ (inheritedText fld).toList := by decide

/-- No maximum is stored in the place of a count. -/
theorem maximum_apart {kn : String × String} {ctrl : Control} (hc : f.controls = e.addPlan ++ addons)
    (hadd : AddonControls addons) (hkn : kn ∈ counts) (ho : f.control o = some ctrl) (hmax : ctrl.definesMax = true) :
    ctrl.field ≠ some kn.1 ∧ o ≠ kn.1 := by
  obtain ⟨hm, rfl⟩ := ActiveForm.control_spec ho
  have hfield : ctrl.field = some ctrl.name ∧ ctrl.field ≠ some kn.1 := by
    rw [hc] at hm
    rcases List.mem_append.1 hm with hm | hm
    · refine ⟨?_, fun hk => ?_⟩
      · rw [e.addPlan_maximum ctrl hm hmax]
        rfl
      · rw [(e.addPlan_count kn hkn ctrl).1 ⟨hm, .inl hk⟩] at hmax
        cases hmax
    · obtain ⟨-, -, hsame, -, hat⟩ := hadd ctrl hm
      have hname : ctrl.field = some ctrl.name := by rw [Control.field, hsame]
      refine ⟨hname, fun hk => ?_⟩
      have hplain : ∀ kn ∈ counts, '@' ∉ kn.1.toList := by decide
      rw [Option.some.inj (hname.symm.trans hk)] at hat
      exact hplain kn hkn hat
  exact ⟨hfield.2, fun he => hfield.2 (he ▸ hfield.1)⟩

/-- What the form for plans is read as: fields of a plan, counts for the limits that were on the page and no
number for those that were not, and maximums that are counts or left open. -/
theorem plan_collected (hc : f.controls = e.addPlan ++ addons) (hadd : AddonControls addons) (hp : f.Paired)
    (h : f.sessionApply Get controls = .ok (.collected json maxs cs)) :
    (ActiveForm.submission .addPlan json maxs cs).OfForm ∧
    (∀ kn ∈ counts, (kn.2 ∈ cs → Counted (prop (Panel.planJson json) kn.1)) ∧
      (kn.2 ∉ cs → prop (Panel.planJson json) kn.1 = .num .nan)) ∧
    ∀ k v, maxs.get? k = some v → '@' ∉ k.toList → v = defaultMaximum ∨ Counted v := by
  have hf : f.Plain := plan_plain hc hadd
  obtain ⟨hjson, hmaxs, hrequired⟩ := ActiveForm.collected_checked hf h
  have hvisible : ∀ ctrl ∈ f.controls, ctrl.hiddenValue = none := by
    intro ctrl hm
    rw [hc] at hm
    rcases List.mem_append.1 hm with hm | hm
    · exact e.addPlan_shown ctrl hm
    · exact (hadd ctrl hm).2.2.2.1
  have hstored : ∀ k v, json.get? k = some v →
      ∃ o ctrl, f.Stores cs k v o ctrl ∧ ctrl.definesMax = false ∧ ctrl.Passes o cs := by
    intro k v hv
    rcases hjson k v hv with hs | ⟨ctrl, hm, -, hhidden, -⟩
    · exact hs
    · cases (hvisible ctrl hm).symm.trans hhidden
  refine ⟨?_, fun kn hkn => ⟨fun hsubmitted => ?_, fun hmissing => ?_⟩, fun k v hv hat => ?_⟩
  · intro k hk
    rcases ActiveForm.collected_fields hf hp h hk with ⟨ctrl, hm, hmethod, hmax, hfield⟩ | ⟨ctrl, hm, -, hsome⟩
    · rw [hc] at hm
      rcases List.mem_append.1 hm with hm | hm
      · rcases hmethod with hmethod | ⟨fld, hin, hname⟩
        · exact e.addPlan_field ctrl hm hmethod hmax hfield
        · have htext := (e.addPlan_named ctrl hm).2
          rw [hname] at htext
          exact absurd (inheritedText_bracket fld hin) htext
      · cases hmax.symm.trans (hadd ctrl hm).2.1
    · rw [hvisible ctrl hm] at hsome
      cases hsome
  · have hcontrol := control_count hc hadd hkn
    have hk : kn.1 ∈ json := by
      obtain ⟨hrun, -, json₀, cnt, hcollect, rfl, -⟩ := ActiveForm.sessionApply_collected hf h
      have hget : f.getFormControls.get? kn.2 = some (e.countControl kn.1 kn.2) :=
        (ActiveForm.get?_getFormControls (ActiveForm.translated_name hrun hsubmitted).1).trans hcontrol
      apply ActiveForm.mem_hide
      exact ActiveForm.collectAll_has hsubmitted hget rfl rfl rfl hcollect
        fun o _ ctrl ho hmax => maximum_apart hc hadd hkn ho hmax
    obtain ⟨v, hv⟩ := Dict.mem_iff.1 hk
    obtain ⟨o, ctrl, hs, hmax, hpasses⟩ := hstored kn.1 v hv
    obtain ⟨rfl, rfl⟩ := stores_count hc hadd hkn hs hmax
    obtain ⟨w, hw, rfl⟩ := hs.read
    rw [planJson_count hkn, prop, hv]
    have hvalid := hpasses.2.resolve_left (by rw [Control.skips]; exact Bool.false_ne_true)
    exact counted_natural (hpasses.1 rfl) (hvalid _ List.mem_cons_self) hw
  · have hk : kn.1 ∉ json := by
      intro hk
      obtain ⟨v, hv⟩ := Dict.mem_iff.1 hk
      obtain ⟨o, ctrl, hs, hmax, -⟩ := hstored kn.1 v hv
      obtain ⟨-, rfl⟩ := stores_count hc hadd hkn hs hmax
      exact hmissing hs.submitted
    rw [planJson_count hkn, prop, Dict.get?_eq_none.2 hk]
    rfl
  · obtain ⟨o, ctrl, w, hs, hmax, hpasses, rfl⟩ := hmaxs k v hv
    obtain ⟨hm, rfl⟩ := ActiveForm.control_spec hs.control
    rw [hc] at hm
    rcases List.mem_append.1 hm with hm | hm
    · obtain ⟨val, hval, rfl⟩ := hs.read
      rw [e.addPlan_maximum ctrl hm hmax] at hpasses hval ⊢
      have hvalid := hpasses.2.resolve_left (by rw [Control.skips]; exact Bool.false_ne_true)
      exact maximumOf_natural (hvalid _ List.mem_cons_self) hval
    · have hfield := hs.field
      obtain ⟨-, -, hsame, -, hown⟩ := hadd ctrl hm
      rw [Control.field, hsame] at hfield
      cases hfield
      exact absurd hown hat

/-- A page for plans, of which two fields are shown. -/
def planPage (e : FormSession) (addons : List Control) : ActiveForm :=
  ActiveForm.render (fun _ => true)
    { controls := e.addPlan ++ addons, allowEmpty := false, fakeIds := .empty, fakeIdsReversed := .empty }
    [(e.countControl "maxUserCount" "plan_max_users", "a1"), (e.maximum "plan_max_plans", "a2")]

def sampleSession : FormSession where
  Get label _ := label
  db := installed
  isRecordUpdating := none
  getUserIPs _ := .ok ["10.0.0.1"]
  testDirectives _ := none

def samplePage : ActiveForm := sampleSession.planPage []

theorem no_addons : AddonControls [] := by
  intro ctrl hm
  exact absurd hm List.not_mem_nil

theorem samplePage_plain : samplePage.Plain := plan_plain rfl no_addons

theorem samplePage_paired : samplePage.Paired := by
  apply ActiveForm.Paired.render
  · refine ⟨fun fld o => iff_of_false ?_ ?_, fun fld o ctrl hget => ?_⟩
    · rintro ⟨⟩
    · rintro ⟨⟩
    · cases hget
  · decide
  · exact fun e he hm => absurd hm List.not_mem_nil
  · simp only [List.forall_mem_cons]
    exact ⟨rfl, rfl, fun e he => absurd he List.not_mem_nil⟩

theorem samplePage_apart : samplePage.Apart := by
  have hids : ∀ fld ∈ ["a1", "a2"], fld ∉ ["plan_max_users", "plan_max_plans"] := by decide
  exact hids

/-- What is submitted for the two fields. -/
def sent (users : String) : Obj := (Dict.empty.set "a1" (.str users)).set "a2" (.str "")

def named (users : String) : Obj := (Dict.empty.set "plan_max_users" (.str users)).set "plan_max_plans" (.str "")

theorem sent_named (users : String) :
    samplePage.translateFakeIds (sent users).keys (sent users) = (named users, none) := rfl

theorem named_keys {users : String} (ho : o ∈ named users) : o = "plan_max_users" ∨ o = "plan_max_plans" := by
  have hkeys : o ∈ ["plan_max_users", "plan_max_plans"] := ho
  rcases List.mem_cons.1 hkeys with rfl | hkeys
  · exact .inl rfl
  · exact .inr (List.mem_singleton.1 hkeys)

theorem users_control :
    samplePage.control "plan_max_users" = some (sampleSession.countControl "maxUserCount" "plan_max_users") := rfl

theorem plans_control : samplePage.control "plan_max_plans" = some (sampleSession.maximum "plan_max_plans") := rfl

/-- The field that is filled in wrongly is named, the other is not. -/
theorem refused_ids_iff_sample : ∃ arr, samplePage.sessionApply (fun label => label) (sent "x3") = .ok (.messages arr) ∧
    (∃ m ∈ arr, prop m "id" = .str "a1") ∧ ¬∃ m ∈ arr, prop m "id" = .str "a2" := by
  have h : ∃ m, samplePage.sessionApply (fun label => label) (sent "x3") = .ok (.messages [m]) := by
    unfold ActiveForm.sessionApply
    rw [sent_named]
    exact ⟨_, rfl⟩
  obtain ⟨m, h⟩ := h
  have hown : ∀ fld ∈ sent "x3", fld ∉ inheritedNames := by
    have hkeys : ∀ fld ∈ ["a1", "a2"], fld ∉ inheritedNames := by decide
    exact hkeys
  obtain ⟨-, cs, hvalues, hids⟩ := ActiveForm.refused_ids_iff samplePage_plain samplePage_paired samplePage_apart hown h
  have hvalue : ∀ fld o v, (sent "x3").get? fld = some v → samplePage.fakeIds.get? fld = some o → prop cs o = v := by
    intro fld o v hv ho
    obtain ⟨o', ho', hget⟩ := hvalues fld v hv
    cases ho.symm.trans ho'
    rw [prop, hget, Option.getD_some]
  refine ⟨[m], h, (hids _).2 ?_, mt (hids _).1 ?_⟩
  · refine ⟨"a1", List.mem_cons_self, "plan_max_users", _, rfl, rfl, users_control, fun hpasses => ?_⟩
    obtain ⟨res, hres, htrue⟩ := hpasses.2.resolve_left Bool.false_ne_true _ List.mem_cons_self
    rw [hvalue "a1" "plan_max_users" (.str "x3") rfl rfl] at hres
    cases hres
    cases htrue
  · rintro ⟨fld, -, o, ctrl, hfld, hget, hc, hfails⟩
    cases hfld
    cases (show samplePage.fakeIds.get? "a2" = some "plan_max_plans" from rfl).symm.trans hget
    cases plans_control.symm.trans hc
    refine hfails ⟨fun hreq => ?_, .inr fun valid hv => ?_⟩
    · cases hreq
    · rw [List.mem_singleton.1 hv, hvalue "a2" "plan_max_plans" (.str "") rfl rfl]
      exact ⟨accepted, rfl, rfl⟩

theorem plan_collected_sample : ∃ json maxs, samplePage.sessionApply id (sent "3") = .ok (.collected json maxs (named "3")) ∧
    (ActiveForm.submission .addPlan json maxs (named "3")).OfForm ∧ Counted (prop (Panel.planJson json) "maxUserCount") ∧
      prop (Panel.planJson json) "maxDomainCount" = .num .nan := by
  obtain ⟨json, maxs, h⟩ : ∃ json maxs, samplePage.sessionApply id (sent "3") = .ok (.collected json maxs (named "3")) := by
    apply ActiveForm.goes_on samplePage_plain (sent_named "3")
    · intro o ho ctrl hc
      rcases named_keys ho with rfl | rfl
      · cases users_control.symm.trans hc
        refine ⟨⟨fun _ => rfl, .inr fun valid hv => ?_⟩, .inr (.inr ⟨.str "3", rfl⟩)⟩
        rw [List.mem_singleton.1 hv]
        exact ⟨accepted, rfl, rfl⟩
      · cases plans_control.symm.trans hc
        refine ⟨⟨fun hreq => ?_, .inr fun valid hv => ?_⟩, .inr (.inr ⟨.str "", rfl⟩)⟩
        · cases hreq
        · rw [List.mem_singleton.1 hv]
          exact ⟨accepted, rfl, rfl⟩
    · exact .inl ⟨"plan_max_users", List.mem_cons_self, rfl⟩
  refine ⟨json, maxs, h, ?_⟩
  obtain ⟨hfields, hcounts, -⟩ :=
    plan_collected rfl no_addons samplePage_paired h
  refine ⟨hfields, (hcounts ("maxUserCount", "plan_max_users") List.mem_cons_self).1 List.mem_cons_self, ?_⟩
  exact (hcounts ("maxDomainCount", "plan_max_domains") (List.mem_cons_of_mem _ List.mem_cons_self)).2 (by decide)

end FormSession
end JXPanel

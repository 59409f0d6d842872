import JXPanel.PlanForms
import JXPanel.PortSettings

namespace JXPanel
set_option autoImplicit true

/-- A loop in which each turn succeeds just for the items that are right does so just if all are. -/
theorem Collect.foldlM_total_iff {α ε σ : Type} {f : σ → α → Except ε σ} {P : α → Prop}
    (h : ∀ s x, (∃ s', f s x = .ok s') ↔ P x) {l : List α} {s : σ} : (∃ s', l.foldlM f s = .ok s') ↔ ∀ x ∈ l, P x := by
  induction l generalizing s with
  | nil => exact iff_of_true ⟨s, rfl⟩ fun x hx => absurd hx List.not_mem_nil
  | cons x l ih =>
    rw [List.foldlM_cons, List.forall_mem_cons, ← h s x]
    constructor
    · rintro ⟨s', hrun⟩
      obtain ⟨s₁, hs₁, hrest⟩ := Collect.bind_ok.1 hrun
      exact ⟨⟨s₁, hs₁⟩, ih.1 ⟨s', hrest⟩⟩
    · rintro ⟨⟨s₁, hs₁⟩, hall⟩
      obtain ⟨s', hs'⟩ := (ih (s := s₁)).2 hall
      exact ⟨s', Collect.bind_ok.2 ⟨s₁, hs₁, hs'⟩⟩

/-- A validator answers with an object, and may write submitted values anew. -/
abbrev Validator := JsVal → Obj → String → Js (Obj × Obj)

/-- The name in the record that a control is stored under. -/
inductive DbName
  | same
  | notSaved
  | alias (name : String)

/-- A field of a form. One without a method has no input on the page. -/
structure Control where
  name : String
  method : Bool := true
  required : Bool := false
  required_label : Option String := none
  dont_update_null : Bool := false
  hiddenValue : Option JsVal := none
  dbName : DbName := .same
  definesMax : Bool := false
  validation : List Validator := []
  convert : JsVal → JsVal := id

/-- The form as it was rendered for the session, under the ids that stand for its fields. -/
structure ActiveForm where
  controls : List Control
  allowEmpty : Bool
  fakeIds : Dict String String
  fakeIdsReversed : Dict String String

/-- What a submission comes to before a record is looked up. -/
inductive FormAnswer
  | error (label : String)
  | messages (arr : List Obj)
  | collected (json planMaximums controls : Obj)

def hasValue : JsVal → Bool
  | .arr [] => false
  | v => v.truthy

/-- `val.replace(/&#64;/g, "@")` -/
def replaceAt : List Char → List Char
  | '&' :: '#' :: '6' :: '4' :: ';' :: cs => '@' :: replaceAt cs
  | c :: cs => c :: replaceAt cs
  | [] => []

/-- Texts are what has a method `trim`; an object that brings something else by this name is no text. -/
def untangled : JsVal → Js JsVal
  | .undefined => .error .typeError
  | .null => .error .typeError
  | .str s => .ok (.str (String.ofList (replaceAt s.toList)))
  | .obj fs => if (prop (JsVal.obj fs).toObj "trim").truthy then .error .typeError else .ok (.obj fs)
  | v => .ok v

/-- The fields of an answer, behind the id of the control on the page. -/
def message (fakeId : JsVal) (res : Obj) : Obj :=
  (res.erase "result").foldl Dict.set (Dict.empty.set "id" fakeId)

/-- The text of what an inherited name stands for. -/
def inheritedText (fld : String) : String :=
  if fld = "__proto__" then "[object Object]"
  else "function " ++ (if fld = "constructor" then "Object" else fld) ++ "() \x7b [native code] \x7d"

/-- What the variable of a loop over the keys of an object is left at. -/
def lastKey (res : Obj) (o : String) : String := res.keys.getLastD o

namespace Control

def labelRequired (ctrl : Control) : String := ctrl.required_label.getD "ValueRequired"

/-- The name under which the control is stored, if it is. -/
def field (ctrl : Control) : Option String :=
  match ctrl.dbName with
  | .same => some ctrl.name
  | .notSaved => none
  | .alias n => some n

/-- A value that the form leaves as it is. -/
def skips (ctrl : Control) (val : JsVal) : Bool := ctrl.dont_update_null && !val.truthy

end Control

namespace ActiveForm

/-- The last of the controls with this name. -/
def control (f : ActiveForm) (o : String) : Option Control :=
  f.controls.foldl (fun found ctrl => if ctrl.name = o then some ctrl else found) none

def getFormControls (f : ActiveForm) : Dict String Control :=
  f.controls.foldl (fun ret ctrl => if ctrl.name = "" then ret else ret.set ctrl.name ctrl) .empty

/-- What `activeForm.fakeIds[fld]` is as a key: also a name that every object has is found. -/
def fieldOf (f : ActiveForm) (fld : String) : Option String :=
  match f.fakeIds.get? fld with
  | some name => if name = "" then none else some name
  | none => if fld ∈ inheritedNames then some (inheritedText fld) else none

/-- The values under the names of their fields; the ids that were submitted are gone through. -/
def translateFakeIds (f : ActiveForm) : List String → Obj → Obj × Option String
  | [], controls => (controls, none)
  | fld :: flds, controls =>
    match f.fieldOf fld with
    | none => (controls, some ("FieldNotFound|" ++ fld))
    | some name => f.translateFakeIds flds ((controls.set name (prop controls fld)).erase fld)

/-- What was submitted, under the names of the fields. -/
def translated (f : ActiveForm) (controls : Obj) : Obj := (f.translateFakeIds controls.keys controls).1

/-- The loop over the validators of a control. Behind an answer that reports an error `o` is the last
field of the answer, and it is that field that is looked up from then on. -/
def validate (ctrl : Control) (fakeId : JsVal) : List Validator → String → Obj → Js (Obj × List Obj)
  | [], _, controls => .ok (controls, [])
  | valid :: valids, o, controls =>
    if ctrl.skips (prop controls o) then validate ctrl fakeId valids o controls
    else do
      let (res, controls) ← valid (prop controls o) controls o
      if (prop res "result").truthy then validate ctrl fakeId valids o controls
      else
        let (controls, messages) ← validate ctrl fakeId valids (lastKey res o) controls
        return (controls, message fakeId res :: messages)

variable (Get : String → String) (f : ActiveForm)

/-- One pass of the loop over what was submitted. -/
def check (o : String) (controls : Obj) : Js (Obj × List Obj) :=
  match f.control o with
  | none => .ok (controls, [])
  | some ctrl => do
    let fakeId := ((f.fakeIdsReversed.get? o).map JsVal.str).getD .undefined
    let missing : List Obj :=
      if ctrl.required && !hasValue (prop controls o) then
        [(Dict.empty.set "msg" (.str (Get ctrl.labelRequired))).set "id" fakeId]
      else []
    let (controls, messages) ← validate ctrl fakeId ctrl.validation o controls
    return (controls, missing ++ messages)

def sessionAdd : List String → Obj → Js (Obj × List Obj)
  | [], controls => .ok (controls, [])
  | o :: os, controls => do
    let (controls, messages) ← f.check Get o controls
    let (controls, more) ← sessionAdd os controls
    return (controls, messages ++ more)

/-- What is collected of one value: the record's fields, the maximums and how many there are. -/
def collect (controls : Obj) (acc : Obj × Obj × Nat) (fld : String) : Js (Obj × Obj × Nat) :=
  let (json, planMaximums, cnt) := acc
  match f.getFormControls.get? fld with
  | none => .ok acc
  | some ctrl =>
    if ctrl.skips (prop controls fld) then .ok (json, planMaximums, cnt + 1)
    else match ctrl.field with
      | none => .ok (json, planMaximums, cnt + 1)
      | some field_name => do
        let val ← untangled (prop controls fld)
        let json := json.set field_name (ctrl.convert val)
        if ctrl.definesMax then
          let n := (prop json field_name).parseInt
          return ((json.erase field_name).erase fld,
            planMaximums.set field_name (if n = .nan then defaultMaximum else .num n), cnt + 1)
        else return (json, planMaximums, cnt + 1)

/-- What stands in for a control that is not on the page. -/
def hide (controls json : Obj) (ctrl : Control) : Obj :=
  match controls.get? ctrl.name, ctrl.hiddenValue with
  | none, some v => json.set ctrl.name v
  | some .undefined, some v => json.set ctrl.name v
  | _, _ => json

/-- `sessionApply` up to where it tells the forms apart. -/
def sessionApply (controls : Obj) : Js FormAnswer :=
  match f.translateFakeIds controls.keys controls with
  | (_, some err) => .ok (.error err)
  | (controls, none) => do
    let (controls, messages) ← f.sessionAdd Get controls.keys controls
    if messages ≠ [] then return .messages messages
    let (json, planMaximums, cnt) ← controls.keys.foldlM (f.collect controls) (.empty, .empty, 0)
    let json := (f.getFormControls.entries.map Prod.snd).foldl (hide controls) json
    if cnt = 0 && !f.allowEmpty then return .error "FormEmpty"
    return .collected json planMaximums controls

end ActiveForm

/-- The validator leaves what was submitted as it is, and its answer brings no id of its own. -/
def Validator.Plain (valid : Validator) : Prop :=
  ∀ val controls o res controls', valid val controls o = .ok (res, controls') → controls' = controls ∧ "id" ∉ res

def Control.Plain (ctrl : Control) : Prop := ∀ valid ∈ ctrl.validation, Validator.Plain valid

/-- A required control has a value, and each validator lets it pass unless the control is skipped. -/
def Control.Passes (ctrl : Control) (o : String) (controls : Obj) : Prop :=
  (ctrl.required = true → hasValue (prop controls o) = true) ∧
    (ctrl.skips (prop controls o) = true ∨ ∀ valid ∈ ctrl.validation,
      ∃ res, valid (prop controls o) controls o = .ok (res, controls) ∧ (prop res "result").truthy = true)

/-- A value that is stored is a text, or it is nothing that looks like one. -/
def Control.Readable (ctrl : Control) (o : String) (controls : Obj) : Prop :=
  ctrl.skips (prop controls o) = true ∨ ctrl.field = none ∨ ∃ val, untangled (prop controls o) = .ok val

/-- The id of a control on the page. -/
def ActiveForm.fakeId (f : ActiveForm) (o : String) : JsVal := ((f.fakeIdsReversed.get? o).map JsVal.str).getD .undefined

def ActiveForm.Plain (f : ActiveForm) : Prop := ∀ ctrl ∈ f.controls, ctrl.Plain

/-- What a control stores under a name of the record. -/
structure ActiveForm.Stores (f : ActiveForm) (controls : Obj) (k : String) (v : JsVal) (o : String) (ctrl : Control) :
    Prop where
  submitted : o ∈ controls
  control : f.control o = some ctrl
  field : ctrl.field = some k
  read : ∃ val, untangled (prop controls o) = .ok val ∧ v = ctrl.convert val

namespace ActiveForm
variable {f : ActiveForm} {Get : String → String} {ctrl : Control} {controls controls' : Obj} {o k fakeId : String}
  {ms : List Obj} {id : JsVal}

theorem control_spec (h : f.control o = some ctrl) : ctrl ∈ f.controls ∧ ctrl.name = o := by
  have hall : ∀ (l : List Control) (found : Option Control),
      l.foldl (fun found ctrl => if ctrl.name = o then some ctrl else found) found = some ctrl →
        found = some ctrl ∨ (ctrl ∈ l ∧ ctrl.name = o) := by
    intro l
    induction l with
    | nil => exact fun found hf => .inl hf
    | cons c l ih =>
      intro found hf
      rw [List.foldl_cons] at hf
      rcases ih _ hf with hc | ⟨hmem, hname⟩
      · split at hc
        · next he =>
          cases hc
          exact .inr ⟨List.mem_cons_self, he⟩
        · exact .inl hc
      · exact .inr ⟨List.mem_cons_of_mem c hmem, hname⟩
  rcases hall f.controls none h with hc | hc
  · cases hc
  · exact hc

theorem control_of_mem (h : ctrl ∈ f.controls) : ∃ found, f.control ctrl.name = some found := by
  have hkeep : ∀ (l : List Control) (found : Control), ∃ found',
      l.foldl (fun found c => if c.name = ctrl.name then some c else found) (some found) = some found' := by
    intro l
    induction l with
    | nil => exact fun found => ⟨found, rfl⟩
    | cons c l ih =>
      intro found
      rw [List.foldl_cons]
      split
      · exact ih c
      · exact ih found
  have hall : ∀ (l : List Control) (found : Option Control), ctrl ∈ l → ∃ found',
      l.foldl (fun found c => if c.name = ctrl.name then some c else found) found = some found' := by
    intro l
    induction l with
    | nil => exact fun found hm => absurd hm List.not_mem_nil
    | cons c l ih =>
      intro found hm
      rw [List.foldl_cons]
      rcases List.mem_cons.1 hm with rfl | hm
      · rw [if_pos rfl]
        exact hkeep l ctrl
      · exact ih _ hm
  exact hall f.controls none h

theorem get?_getFormControls (ho : o ≠ "") : f.getFormControls.get? o = f.control o := by
  have hall : ∀ (l : List Control) (ret : Dict String Control) (found : Option Control), ret.get? o = found →
      (l.foldl (fun ret ctrl => if ctrl.name = "" then ret else ret.set ctrl.name ctrl) ret).get? o =
        l.foldl (fun found ctrl => if ctrl.name = o then some ctrl else found) found := by
    intro l
    induction l with
    | nil => exact fun ret found hf => hf
    | cons c l ih =>
      intro ret found hf
      rw [List.foldl_cons, List.foldl_cons]
      apply ih
      split
      · next hempty =>
        rw [if_neg fun he => ho (he.symm.trans hempty)]
        exact hf
      · rw [Dict.get?_set]
        split
        · next he => rw [if_pos he.symm]
        · next hne => rw [if_neg fun he => hne he.symm, hf]
  exact hall f.controls .empty none rfl

theorem control_of_get? (h : f.getFormControls.get? o = some ctrl) : f.control o = some ctrl := by
  by_cases ho : o = ""
  · have hall : ∀ (l : List Control) (ret : Dict String Control), ret.get? "" = none →
        (l.foldl (fun ret ctrl => if ctrl.name = "" then ret else ret.set ctrl.name ctrl) ret).get? "" = none := by
      intro l
      induction l with
      | nil => exact fun ret hret => hret
      | cons c l ih =>
        intro ret hret
        rw [List.foldl_cons]
        apply ih
        split
        · exact hret
        · next hne => rwa [Dict.get?_set_ne _ _ fun he => hne he.symm]
    rw [ho, getFormControls, hall f.controls .empty rfl] at h
    cases h
  · rwa [get?_getFormControls ho] at h

/-! The checks. -/

theorem message_id {res : Obj} (hres : "id" ∉ res) (id : JsVal) : prop (message id res) "id" = id := by
  have herased : (res.erase "result").get? "id" = none := by
    rw [Dict.get?_eq_none]
    exact fun hm => hres (Dict.mem_erase.1 hm).2
  rw [message, prop_foldl_set, herased]
  rfl

/-- The values stay, each message is about the control, and there is none just if all validators let it pass. -/
theorem validate_spec {valids : List Validator} (hplain : ∀ valid ∈ valids, Validator.Plain valid)
    (h : validate ctrl id valids o controls = .ok (controls', ms)) :
    controls' = controls ∧ (∀ m ∈ ms, prop m "id" = id) ∧
      (ms = [] ↔ ctrl.skips (prop controls o) = true ∨ ∀ valid ∈ valids,
        ∃ res, valid (prop controls o) controls o = .ok (res, controls) ∧ (prop res "result").truthy = true) := by
  induction valids generalizing o ms controls with
  | nil =>
    cases h
    refine ⟨rfl, fun m hm => absurd hm List.not_mem_nil, iff_of_true rfl (.inr ?_)⟩
    exact fun valid hv => absurd hv List.not_mem_nil
  | cons valid valids ih =>
    have hrest := fun v hv => hplain v (List.mem_cons_of_mem valid hv)
    rw [validate] at h
    split at h
    · next hskip =>
      obtain ⟨hsame, hid, hiff⟩ := ih hrest h
      exact ⟨hsame, hid, iff_of_true (hiff.2 (.inl hskip)) (.inl hskip)⟩
    · next hskip =>
      obtain ⟨⟨res, c₁⟩, hres, hrun⟩ := Collect.bind_ok.1 h
      obtain ⟨rfl, hnoid⟩ := hplain valid List.mem_cons_self _ _ _ _ _ hres
      dsimp only at hrun
      split at hrun
      · next htrue =>
        obtain ⟨hsame, hid, hiff⟩ := ih hrest hrun
        refine ⟨hsame, hid, hiff.trans ?_⟩
        rw [or_iff_right hskip, or_iff_right hskip, List.forall_mem_cons, and_iff_right ⟨res, hres, htrue⟩]
      · next hfalse =>
        obtain ⟨⟨c₂, more⟩, hmore, hrun⟩ := Collect.bind_ok.1 hrun
        cases hrun
        obtain ⟨hsame, hid, -⟩ := ih hrest hmore
        refine ⟨hsame, fun m hm => ?_, iff_of_false (List.cons_ne_nil _ _) ?_⟩
        · rcases List.mem_cons.1 hm with rfl | hm
          · exact message_id hnoid id
          · exact hid m hm
        · rintro (hskipped | hall)
          · exact hskip hskipped
          · obtain ⟨res', hres', htrue⟩ := hall valid List.mem_cons_self
            cases Except.ok.inj (hres.symm.trans hres')
            exact hfalse htrue

theorem validate_ok {valids : List Validator} (h : ctrl.skips (prop controls o) = true ∨ ∀ valid ∈ valids,
    ∃ res, valid (prop controls o) controls o = .ok (res, controls) ∧ (prop res "result").truthy = true) :
    validate ctrl id valids o controls = .ok (controls, []) := by
  induction valids with
  | nil => rfl
  | cons valid valids ih =>
    rw [validate]
    split
    · next hskip => exact ih (.inl hskip)
    · next hskip =>
      have hall := h.resolve_left hskip
      obtain ⟨res, hres, htrue⟩ := hall valid List.mem_cons_self
      rw [hres, Collect.ok_bind]
      dsimp only
      rw [if_pos htrue]
      exact ih (.inr fun v hv => hall v (List.mem_cons_of_mem valid hv))

/-- One pass of the loop: messages about the control, if it does not pass, and no others. -/
theorem check_spec (hf : f.Plain) (h : f.check Get o controls = .ok (controls', ms)) : controls' = controls ∧
    (∀ m ∈ ms, prop m "id" = f.fakeId o) ∧ (ms = [] ↔ ∀ ctrl, f.control o = some ctrl → ctrl.Passes o controls) := by
  unfold check at h
  cases hc : f.control o with
  | none =>
    rw [hc] at h
    cases h
    refine ⟨rfl, fun m hm => absurd hm List.not_mem_nil, iff_of_true rfl fun ctrl he => ?_⟩
    cases he
  | some ctrl =>
    rw [hc] at h
    obtain ⟨⟨c₁, more⟩, hmore, h⟩ := Collect.bind_ok.1 h
    cases h
    obtain ⟨hsame, hid, hiff⟩ := validate_spec (hf ctrl (control_spec hc).1) hmore
    refine ⟨hsame, fun m hm => ?_, ?_⟩
    · rcases List.mem_append.1 hm with hm | hm
      · split at hm
        · rw [List.mem_singleton.1 hm, prop, Dict.get?_set_self]
          rfl
        · exact absurd hm List.not_mem_nil
      · exact hid m hm
    · rw [List.append_eq_nil_iff, hiff]
      constructor
      · rintro ⟨hvalue, hpasses⟩ ctrl' he
        cases he
        refine ⟨fun hreq => ?_, hpasses⟩
        split at hvalue
        · cases hvalue
        · next hno =>
          rw [hreq, Bool.true_and, Bool.not_eq_true', Bool.not_eq_false] at hno
          exact hno
      · intro hall
        obtain ⟨hvalue, hpasses⟩ := hall ctrl rfl
        refine ⟨?_, hpasses⟩
        split
        · next hno =>
          obtain ⟨hreq, hmissing⟩ := Bool.and_eq_true_iff.1 hno
          rw [hvalue hreq] at hmissing
          cases hmissing
        · rfl

theorem check_ok (h : ∀ ctrl, f.control o = some ctrl → ctrl.Passes o controls) :
    f.check Get o controls = .ok (controls, []) := by
  unfold check
  cases hc : f.control o with
  | none => rfl
  | some ctrl =>
    obtain ⟨hvalue, hpasses⟩ := h ctrl hc
    dsimp only
    rw [validate_ok hpasses, Collect.ok_bind]
    dsimp only
    split
    · next hno =>
      obtain ⟨hreq, hmissing⟩ := Bool.and_eq_true_iff.1 hno
      rw [hvalue hreq] at hmissing
      cases hmissing
    · rfl

/-- The messages name just the controls, of those that were submitted, that do not pass: the variable that
the inner loop takes from the outer one changes none of it. -/
theorem sessionAdd_names_iff {os : List String} (hf : f.Plain)
    (h : f.sessionAdd Get os controls = .ok (controls', ms)) : controls' = controls ∧
    ∀ id, (∃ m ∈ ms, prop m "id" = id) ↔
      ∃ o ∈ os, ∃ ctrl, f.control o = some ctrl ∧ ¬ctrl.Passes o controls ∧ id = f.fakeId o := by
  induction os generalizing ms controls with
  | nil =>
    cases h
    refine ⟨rfl, fun id => iff_of_false ?_ ?_⟩
    · rintro ⟨m, hm, -⟩
      exact absurd hm List.not_mem_nil
    · rintro ⟨o, ho, -⟩
      exact absurd ho List.not_mem_nil
  | cons o os ih =>
    rw [sessionAdd] at h
    obtain ⟨⟨c₁, here⟩, hhere, h⟩ := Collect.bind_ok.1 h
    obtain ⟨⟨c₂, more⟩, hmore, h⟩ := Collect.bind_ok.1 h
    cases h
    obtain ⟨rfl, hid, hiff⟩ := check_spec hf hhere
    obtain ⟨hsame, hrest⟩ := ih hmore
    refine ⟨hsame, fun id => ?_⟩
    have hfirst : (∃ m ∈ here, prop m "id" = id) ↔
        ∃ ctrl, f.control o = some ctrl ∧ ¬ctrl.Passes o c₁ ∧ id = f.fakeId o := by
      constructor
      · rintro ⟨m, hm, rfl⟩
        by_contra hno
        refine List.ne_nil_of_mem hm (hiff.2 fun ctrl hc => ?_)
        by_contra hfails
        exact hno ⟨ctrl, hc, hfails, hid m hm⟩
      · rintro ⟨ctrl, hc, hfails, rfl⟩
        obtain ⟨m, hm⟩ := List.exists_mem_of_ne_nil here fun hnil => hfails (hiff.1 hnil ctrl hc)
        exact ⟨m, hm, hid m hm⟩
    constructor
    · rintro ⟨m, hm, he⟩
      rcases List.mem_append.1 hm with hm | hm
      · exact ⟨o, List.mem_cons_self, hfirst.1 ⟨m, hm, he⟩⟩
      · obtain ⟨o', ho', hfails⟩ := (hrest id).1 ⟨m, hm, he⟩
        exact ⟨o', List.mem_cons_of_mem o ho', hfails⟩
    · rintro ⟨o', ho', hfails⟩
      rcases List.mem_cons.1 ho' with rfl | ho'
      · obtain ⟨m, hm, he⟩ := hfirst.2 hfails
        exact ⟨m, List.mem_append_left _ hm, he⟩
      · obtain ⟨m, hm, he⟩ := (hrest id).2 ⟨o', ho', hfails⟩
        exact ⟨m, List.mem_append_right _ hm, he⟩

/-- Nothing is reported just if everything that was submitted passes. -/
theorem sessionAdd_quiet_iff {os : List String} (hf : f.Plain) :
    f.sessionAdd Get os controls = .ok (controls, []) ↔
      ∀ o ∈ os, ∀ ctrl, f.control o = some ctrl → ctrl.Passes o controls := by
  constructor
  · intro h o ho ctrl hc
    by_contra hfails
    obtain ⟨m, hm, -⟩ := ((sessionAdd_names_iff hf h).2 (f.fakeId o)).2 ⟨o, ho, ctrl, hc, hfails, rfl⟩
    exact absurd hm List.not_mem_nil
  · intro h
    induction os with
    | nil => rfl
    | cons o os ih =>
      rw [sessionAdd, check_ok (h o List.mem_cons_self), Collect.ok_bind]
      dsimp only
      rw [ih fun o' ho' => h o' (List.mem_cons_of_mem o ho')]
      rfl

/-! The names. -/

/-- An id of the page, or a name that is found in every object. -/
def Known (f : ActiveForm) (fld : String) : Prop :=
  (∃ o, o ≠ "" ∧ f.fakeIds.get? fld = some o) ∨ (fld ∉ f.fakeIds ∧ fld ∈ inheritedNames)

theorem fieldOf_cases {fld : String} (h : f.fieldOf fld = some o) : (o ≠ "" ∧ f.fakeIds.get? fld = some o) ∨
    (fld ∉ f.fakeIds ∧ fld ∈ inheritedNames ∧ o = inheritedText fld) := by
  unfold fieldOf at h
  cases hget : f.fakeIds.get? fld with
  | some name =>
    rw [hget] at h
    dsimp only at h
    split at h
    · cases h
    · next hne =>
      cases h
      exact .inl ⟨hne, rfl⟩
  | none =>
    rw [hget] at h
    dsimp only at h
    split at h
    · next hin => exact .inr ⟨Dict.get?_eq_none.1 hget, hin, (Option.some.inj h).symm⟩
    · cases h

theorem fieldOf_isSome_iff {fld : String} : (∃ o, f.fieldOf fld = some o) ↔ f.Known fld := by
  constructor
  · rintro ⟨o, ho⟩
    rcases fieldOf_cases ho with hpage | ⟨hout, hin, -⟩
    · exact .inl ⟨o, hpage⟩
    · exact .inr ⟨hout, hin⟩
  · rintro (⟨o, hne, hget⟩ | ⟨hout, hin⟩)
    · exact ⟨o, by rw [fieldOf, hget]; exact if_neg hne⟩
    · exact ⟨_, by rw [fieldOf, Dict.get?_eq_none.2 hout]; exact if_pos hin⟩

theorem inheritedText_ne_empty (fld : String) : inheritedText fld ≠ "" := by
  unfold inheritedText
  split
  · decide
  · intro he
    have hchars := congrArg String.toList he
    rw [String.toList_append, String.toList_append] at hchars
    exact absurd (List.append_eq_nil_iff.1 (List.append_eq_nil_iff.1 hchars).1).1 (by decide)

/-- The translation goes through just for ids that are found. -/
theorem translateFakeIds_total_iff {flds : List String} :
    (f.translateFakeIds flds controls).2 = none ↔ ∀ fld ∈ flds, f.Known fld := by
  induction flds generalizing controls with
  | nil => exact iff_of_true rfl fun fld hm => absurd hm List.not_mem_nil
  | cons fld flds ih =>
    rw [translateFakeIds, List.forall_mem_cons, ← fieldOf_isSome_iff]
    cases hname : f.fieldOf fld with
    | none =>
      refine iff_of_false (fun he => ?_) fun hall => ?_
      · cases he
      · obtain ⟨⟨o, ho⟩, -⟩ := hall
        cases ho
    | some name => exact ih.trans (and_iff_right ⟨name, rfl⟩).symm

/-- Behind the translation there are names of fields only, each for an id that is found. -/
theorem translateFakeIds_spec {flds : List String} (h : f.translateFakeIds flds controls = (controls', none)) :
    ∀ k ∈ controls', (k ∈ controls ∧ k ∉ flds) ∨ ∃ fld ∈ flds, f.fieldOf fld = some k := by
  induction flds generalizing controls with
  | nil =>
    cases h
    exact fun k hk => .inl ⟨hk, List.not_mem_nil⟩
  | cons fld flds ih =>
    rw [translateFakeIds] at h
    cases hname : f.fieldOf fld with
    | none =>
      rw [hname] at h
      cases h
    | some name =>
      rw [hname] at h
      intro k hk
      rcases ih h k hk with ⟨hmem, hflds⟩ | ⟨fld', hfld', hget⟩
      · obtain ⟨hfld, hset⟩ := Dict.mem_erase.1 hmem
        rcases Dict.mem_set.1 hset with rfl | hold
        · exact .inr ⟨fld, List.mem_cons_self, hname⟩
        · exact .inl ⟨hold, fun hm => (List.mem_cons.1 hm).elim hfld hflds⟩
      · exact .inr ⟨fld', List.mem_cons_of_mem fld hfld', hget⟩

theorem translated_name (h : f.translateFakeIds controls.keys controls = (controls', none)) (ho : o ∈ controls') :
    o ≠ "" ∧ ∃ fld ∈ controls, f.fieldOf fld = some o := by
  rcases translateFakeIds_spec h o ho with ⟨hmem, hkeys⟩ | ⟨fld, hfld, hget⟩
  · exact absurd (Dict.mem_keys.2 hmem) hkeys
  · refine ⟨?_, fld, Dict.mem_keys.1 hfld, hget⟩
    rcases fieldOf_cases hget with ⟨hne, -⟩ | ⟨-, -, rfl⟩
    · exact hne
    · exact inheritedText_ne_empty fld

theorem translated_eq (h : f.translateFakeIds controls.keys controls = (controls', none)) : f.translated controls = controls' :=
  congrArg Prod.fst h

theorem translated_iff : f.translateFakeIds controls.keys controls = (f.translated controls, none) ↔
    ∀ fld ∈ controls, f.Known fld := by
  have hnone : (f.translateFakeIds controls.keys controls).2 = none ↔ ∀ fld ∈ controls, f.Known fld :=
    translateFakeIds_total_iff
  rw [← hnone]
  constructor
  · exact congrArg Prod.snd
  · exact fun hlast => Prod.ext rfl hlast

/-! What is collected. -/

/-- The maximum that a text stands for. -/
def maximumOf (v : JsVal) : JsVal := if v.parseInt = .nan then defaultMaximum else .num v.parseInt

/-- What one value adds to what is collected. -/
theorem collect_cases {json json' maxs maxs' : Obj} {cnt cnt' : Nat} {fld : String}
    (h : f.collect controls (json, maxs, cnt) fld = .ok (json', maxs', cnt')) :
    (f.getFormControls.get? fld = none ∧ json' = json ∧ maxs' = maxs ∧ cnt' = cnt) ∨
      ∃ ctrl, f.getFormControls.get? fld = some ctrl ∧ cnt' = cnt + 1 ∧ ((json' = json ∧ maxs' = maxs) ∨
        ∃ k val, ctrl.field = some k ∧ untangled (prop controls fld) = .ok val ∧
          ((ctrl.definesMax = false ∧ json' = json.set k (ctrl.convert val) ∧ maxs' = maxs) ∨
            (ctrl.definesMax = true ∧ json' = ((json.set k (ctrl.convert val)).erase k).erase fld ∧
              maxs' = maxs.set k (maximumOf (ctrl.convert val))))) := by
  unfold collect at h
  dsimp only at h
  cases hc : f.getFormControls.get? fld with
  | none =>
    rw [hc] at h
    cases h
    exact .inl ⟨rfl, rfl, rfl, rfl⟩
  | some ctrl =>
    rw [hc] at h
    dsimp only at h
    refine .inr ⟨ctrl, rfl, ?_⟩
    split at h
    · cases h
      exact ⟨rfl, .inl ⟨rfl, rfl⟩⟩
    · cases hk : ctrl.field with
      | none =>
        rw [hk] at h
        cases h
        exact ⟨rfl, .inl ⟨rfl, rfl⟩⟩
      | some k =>
        rw [hk] at h
        obtain ⟨val, hval, hrun⟩ := Collect.bind_ok.1 h
        split at hrun
        · next hmax =>
          cases hrun
          refine ⟨rfl, .inr ⟨k, val, rfl, hval, .inr ⟨hmax, rfl, ?_⟩⟩⟩
          rw [prop, Dict.get?_set_self]
          rfl
        · next hmax =>
          cases hrun
          exact ⟨rfl, .inr ⟨k, val, rfl, hval, .inl ⟨Bool.eq_false_iff.2 hmax, rfl, rfl⟩⟩⟩

theorem collect_total_iff {acc : Obj × Obj × Nat} {fld : String} : (∃ acc', f.collect controls acc fld = .ok acc') ↔
    ∀ ctrl, f.getFormControls.get? fld = some ctrl → ctrl.Readable fld controls := by
  obtain ⟨json, maxs, cnt⟩ := acc
  unfold collect
  dsimp only
  cases hc : f.getFormControls.get? fld with
  | none =>
    refine iff_of_true ⟨_, rfl⟩ fun ctrl he => ?_
    cases he
  | some ctrl =>
    have hone : (∀ ctrl', some ctrl = some ctrl' → ctrl'.Readable fld controls) ↔ ctrl.Readable fld controls := by
      constructor
      · exact fun hall => hall ctrl rfl
      · rintro hr ctrl' ⟨⟩
        exact hr
    rw [hone, Control.Readable]
    dsimp only
    split
    · next hskip => exact iff_of_true ⟨_, rfl⟩ (.inl hskip)
    · next hskip =>
      rw [or_iff_right hskip]
      cases hk : ctrl.field with
      | none => exact iff_of_true ⟨_, rfl⟩ (.inl rfl)
      | some k =>
        rw [or_iff_right (by simp)]
        dsimp only
        constructor
        · rintro ⟨acc', hacc⟩
          obtain ⟨val, hval, -⟩ := Collect.bind_ok.1 hacc
          exact ⟨val, hval⟩
        · rintro ⟨val, hval⟩
          rw [hval, Collect.ok_bind]
          split
          · exact ⟨_, rfl⟩
          · exact ⟨_, rfl⟩

theorem collectAll_total_iff {flds : List String} {acc : Obj × Obj × Nat} :
    (∃ acc', flds.foldlM (f.collect controls) acc = .ok acc') ↔
      ∀ fld ∈ flds, ∀ ctrl, f.getFormControls.get? fld = some ctrl → ctrl.Readable fld controls := by
  apply Collect.foldlM_total_iff (P := fun fld => ∀ ctrl, f.getFormControls.get? fld = some ctrl → ctrl.Readable fld controls)
  exact fun acc fld => collect_total_iff

/-- How many of the values belong to controls. -/
theorem collect_count {flds : List String} {json json' maxs maxs' : Obj} {cnt cnt' : Nat}
    (h : flds.foldlM (f.collect controls) (json, maxs, cnt) = .ok (json', maxs', cnt')) :
    cnt' = 0 ↔ cnt = 0 ∧ ∀ fld ∈ flds, f.getFormControls.get? fld = none := by
  induction flds generalizing json maxs cnt with
  | nil =>
    cases h
    exact (and_iff_left fun fld hf => absurd hf List.not_mem_nil).symm
  | cons fld flds ih =>
    rw [List.foldlM_cons] at h
    obtain ⟨⟨json₁, maxs₁, cnt₁⟩, hstep, hrest⟩ := Collect.bind_ok.1 h
    rw [ih hrest, List.forall_mem_cons]
    rcases collect_cases hstep with ⟨hnone, -, -, rfl⟩ | ⟨ctrl, hc, rfl, -⟩
    · exact and_congr_right fun _ => (and_iff_right hnone).symm
    · refine iff_of_false (fun hz => Nat.succ_ne_zero cnt hz.1) ?_
      rintro ⟨-, hnone, -⟩
      cases hc.symm.trans hnone

/-- Each field and each maximum comes from a control that stores it. -/
structure Sourced (f : ActiveForm) (controls json maxs : Obj) : Prop where
  json : ∀ k v, json.get? k = some v → ∃ o ctrl, f.Stores controls k v o ctrl ∧ ctrl.definesMax = false
  maxs : ∀ k v, maxs.get? k = some v → ∃ o ctrl w, f.Stores controls k w o ctrl ∧ ctrl.definesMax = true ∧ v = maximumOf w

theorem Sourced.collect {json json' maxs maxs' : Obj} {cnt cnt' : Nat} (hs : Sourced f controls json maxs)
    (ho : o ∈ controls) (h : f.collect controls (json, maxs, cnt) o = .ok (json', maxs', cnt')) :
    Sourced f controls json' maxs' := by
  rcases collect_cases h with ⟨-, rfl, rfl, -⟩ |
    ⟨ctrl, hc, -, ⟨rfl, rfl⟩ | ⟨k, val, hk, hval, ⟨hmax, rfl, rfl⟩ | ⟨hmax, rfl, rfl⟩⟩⟩
  · exact hs
  · exact hs
  · have hstores : f.Stores controls k (ctrl.convert val) o ctrl := ⟨ho, control_of_get? hc, hk, val, hval, rfl⟩
    refine ⟨fun k' v hv => ?_, hs.maxs⟩
    rw [Dict.get?_set] at hv
    split at hv
    · next he =>
      cases hv
      exact ⟨o, ctrl, he ▸ hstores, hmax⟩
    · exact hs.json k' v hv
  · have hstores : f.Stores controls k (ctrl.convert val) o ctrl := ⟨ho, control_of_get? hc, hk, val, hval, rfl⟩
    refine ⟨fun k' v hv => ?_, fun k' v hv => ?_⟩
    · rw [Dict.get?_erase] at hv
      split at hv
      · cases hv
      · rw [Dict.get?_erase] at hv
        split at hv
        · cases hv
        · next hne =>
          rw [Dict.get?_set_ne _ _ hne] at hv
          exact hs.json k' v hv
    · rw [Dict.get?_set] at hv
      split at hv
      · next he =>
        cases hv
        exact ⟨o, ctrl, ctrl.convert val, he ▸ hstores, hmax, rfl⟩
      · exact hs.maxs k' v hv

theorem Sourced.collectAll {flds : List String} {json json' maxs maxs' : Obj} {cnt cnt' : Nat}
    (hs : Sourced f controls json maxs) (hflds : ∀ fld ∈ flds, fld ∈ controls)
    (h : flds.foldlM (f.collect controls) (json, maxs, cnt) = .ok (json', maxs', cnt')) :
    Sourced f controls json' maxs' := by
  induction flds generalizing json maxs cnt with
  | nil =>
    cases h
    exact hs
  | cons fld flds ih =>
    rw [List.foldlM_cons] at h
    obtain ⟨⟨json₁, maxs₁, cnt₁⟩, hstep, hrest⟩ := Collect.bind_ok.1 h
    exact ih (hs.collect (hflds fld List.mem_cons_self) hstep) (fun o ho => hflds o (List.mem_cons_of_mem fld ho)) hrest

theorem hide_get? {json : Obj} {ctrls : List Control} {k : String} {v : JsVal}
    (h : (ctrls.foldl (hide controls) json).get? k = some v) : json.get? k = some v ∨
      ∃ ctrl ∈ ctrls, ctrl.name = k ∧ ctrl.hiddenValue = some v ∧ prop controls k = .undefined := by
  induction ctrls generalizing json with
  | nil => exact .inl h
  | cons ctrl ctrls ih =>
    rw [List.foldl_cons] at h
    rcases ih h with hv | ⟨ctrl', hmem, hrest⟩
    · have hset : ∀ w, (json.set ctrl.name w).get? k = some v → ctrl.hiddenValue = some w →
          prop controls ctrl.name = .undefined → json.get? k = some v ∨
            ∃ ctrl' ∈ ctrl :: ctrls, ctrl'.name = k ∧ ctrl'.hiddenValue = some v ∧ prop controls k = .undefined := by
        intro w hw hhidden hnone
        rw [Dict.get?_set] at hw
        split at hw
        · next he =>
          cases hw
          rw [he]
          exact .inr ⟨ctrl, List.mem_cons_self, rfl, hhidden, hnone⟩
        · exact .inl hw
      unfold hide at hv
      split at hv
      · next w hnone hhidden => exact hset w hv hhidden (by rw [prop, hnone]; rfl)
      · next w hnone hhidden => exact hset w hv hhidden (by rw [prop, hnone]; rfl)
      · exact .inl hv
    · exact .inr ⟨ctrl', List.mem_cons_of_mem ctrl hmem, hrest⟩

/-- What a submission goes through that is collected. -/
theorem sessionApply_collected {json maxs : Obj} (hf : f.Plain)
    (h : f.sessionApply Get controls = .ok (.collected json maxs controls')) :
    f.translateFakeIds controls.keys controls = (controls', none) ∧ f.sessionAdd Get controls'.keys controls' = .ok (controls', []) ∧
      ∃ json₀ cnt, controls'.keys.foldlM (f.collect controls') (.empty, .empty, 0) = .ok (json₀, maxs, cnt) ∧
        json = (f.getFormControls.entries.map Prod.snd).foldl (hide controls') json₀ ∧ (cnt ≠ 0 ∨ f.allowEmpty = true) := by
  unfold sessionApply at h
  rcases hrun : f.translateFakeIds controls.keys controls with ⟨c₁, _ | err⟩
  · rw [hrun] at h
    obtain ⟨⟨c₂, ms⟩, hadd, hnext⟩ := Collect.bind_ok.1 h
    obtain ⟨rfl, -⟩ := sessionAdd_names_iff hf hadd
    dsimp only at hnext
    split at hnext
    · cases hnext
    · next hquiet =>
      rw [not_not.1 hquiet] at hadd
      obtain ⟨⟨json₀, maxs₀, cnt⟩, hcollect, hlast⟩ := Collect.bind_ok.1 hnext
      dsimp only at hlast
      split at hlast
      · cases hlast
      · next hcount =>
        cases hlast
        refine ⟨rfl, hadd, json₀, cnt, hcollect, rfl, ?_⟩
        rw [Bool.and_eq_true, Bool.not_eq_true', decide_eq_true_iff, not_and_or, Bool.not_eq_false] at hcount
        exact hcount
  · rw [hrun] at h
    cases h

theorem sessionApply_of {json₀ maxs : Obj} {cnt : Nat}
    (hrun : f.translateFakeIds controls.keys controls = (controls', none))
    (hadd : f.sessionAdd Get controls'.keys controls' = .ok (controls', []))
    (hcollect : controls'.keys.foldlM (f.collect controls') (.empty, .empty, 0) = .ok (json₀, maxs, cnt))
    (hcnt : cnt ≠ 0 ∨ f.allowEmpty = true) : f.sessionApply Get controls =
      .ok (.collected ((f.getFormControls.entries.map Prod.snd).foldl (hide controls') json₀) maxs controls') := by
  have hsome : ¬((decide (cnt = 0) && !f.allowEmpty) = true) := by
    rw [Bool.and_eq_true, decide_eq_true_iff, Bool.not_eq_true']
    rintro ⟨hzero, hempty⟩
    rcases hcnt with hcnt | hcnt
    · exact hcnt hzero
    · cases hcnt.symm.trans hempty
  unfold sessionApply
  rw [hrun]
  dsimp only
  rw [hadd, Collect.ok_bind]
  dsimp only
  rw [if_neg (not_not.2 rfl), hcollect, Collect.ok_bind]
  dsimp only
  rw [if_neg hsome]
  rfl

/-- What is collected stays, unless a maximum is stored under the name. -/
theorem collect_keeps {json json' maxs maxs' : Obj} {cnt cnt' : Nat}
    (h : f.collect controls (json, maxs, cnt) o = .ok (json', maxs', cnt')) (hk : k ∈ json)
    (hmax : ∀ ctrl, f.control o = some ctrl → ctrl.definesMax = true → ctrl.field ≠ some k ∧ o ≠ k) : k ∈ json' := by
  rcases collect_cases h with ⟨-, rfl, -⟩ | ⟨ctrl, hc, -, ⟨rfl, -⟩ | ⟨k', val, hk', -, ⟨-, rfl, -⟩ | ⟨hdefines, rfl, -⟩⟩⟩
  · exact hk
  · exact hk
  · exact Dict.mem_set.2 (.inr hk)
  · obtain ⟨hfield, hne⟩ := hmax ctrl (control_of_get? hc) hdefines
    refine Dict.mem_erase.2 ⟨fun he => hne he.symm, Dict.mem_erase.2 ⟨?_, Dict.mem_set.2 (.inr hk)⟩⟩
    rintro rfl
    exact hfield hk'

theorem collectAll_keeps {flds : List String} {json json' maxs maxs' : Obj} {cnt cnt' : Nat}
    (h : flds.foldlM (f.collect controls) (json, maxs, cnt) = .ok (json', maxs', cnt')) (hk : k ∈ json)
    (hmax : ∀ o ∈ flds, ∀ ctrl, f.control o = some ctrl → ctrl.definesMax = true → ctrl.field ≠ some k ∧ o ≠ k) :
    k ∈ json' := by
  induction flds generalizing json maxs cnt with
  | nil =>
    cases h
    exact hk
  | cons fld flds ih =>
    rw [List.foldlM_cons] at h
    obtain ⟨⟨json₁, maxs₁, cnt₁⟩, hstep, hrest⟩ := Collect.bind_ok.1 h
    exact ih hrest (collect_keeps hstep hk (hmax fld List.mem_cons_self)) fun o ho => hmax o (List.mem_cons_of_mem fld ho)

/-- The value of a control that is stored is collected. -/
theorem collectAll_has {flds : List String} {json json' maxs maxs' : Obj} {cnt cnt' : Nat} (ho : o ∈ flds)
    (hc : f.getFormControls.get? o = some ctrl) (hskip : ctrl.skips (prop controls o) = false) (hk : ctrl.field = some k)
    (hdefines : ctrl.definesMax = false)
    (h : flds.foldlM (f.collect controls) (json, maxs, cnt) = .ok (json', maxs', cnt'))
    (hmax : ∀ o ∈ flds, ∀ ctrl, f.control o = some ctrl → ctrl.definesMax = true → ctrl.field ≠ some k ∧ o ≠ k) :
    k ∈ json' := by
  induction flds generalizing json maxs cnt with
  | nil => exact absurd ho List.not_mem_nil
  | cons fld flds ih =>
    rw [List.foldlM_cons] at h
    obtain ⟨⟨json₁, maxs₁, cnt₁⟩, hstep, hrest⟩ := Collect.bind_ok.1 h
    have hlater := fun o ho => hmax o (List.mem_cons_of_mem fld ho)
    rcases List.mem_cons.1 ho with rfl | ho
    · have hstored : k ∈ json₁ := by
        unfold collect at hstep
        dsimp only at hstep
        rw [hc] at hstep
        dsimp only at hstep
        rw [if_neg (Bool.eq_false_iff.1 hskip), hk] at hstep
        obtain ⟨val, -, hrun⟩ := Collect.bind_ok.1 hstep
        rw [if_neg (Bool.eq_false_iff.1 hdefines)] at hrun
        cases hrun
        exact Dict.mem_set.2 (.inl rfl)
      exact collectAll_keeps hrest hstored hlater
    · exact ih ho hrest hlater

theorem mem_hide {json : Obj} {ctrls : List Control} (hk : k ∈ json) : k ∈ ctrls.foldl (hide controls) json := by
  induction ctrls generalizing json with
  | nil => exact hk
  | cons ctrl ctrls ih =>
    rw [List.foldl_cons]
    apply ih
    unfold hide
    split
    · exact Dict.mem_set.2 (.inr hk)
    · exact Dict.mem_set.2 (.inr hk)
    · exact hk

/-- Whether some of the values belong to controls. -/
theorem collected_some_iff {json₀ maxs₀ : Obj} {cnt : Nat}
    (hrun : f.translateFakeIds controls.keys controls = (controls', none))
    (h : controls'.keys.foldlM (f.collect controls') (.empty, .empty, 0) = .ok (json₀, maxs₀, cnt)) :
    cnt ≠ 0 ↔ ∃ o ∈ controls', (f.control o).isSome := by
  rw [Ne, collect_count h, and_iff_right rfl, not_forall]
  constructor
  · rintro ⟨o, hno⟩
    obtain ⟨ho, hno⟩ := Classical.not_imp.1 hno
    rw [get?_getFormControls (translated_name hrun ho).1] at hno
    exact ⟨o, ho, Option.ne_none_iff_isSome.1 hno⟩
  · rintro ⟨o, ho, hsome⟩
    refine ⟨o, fun hall => ?_⟩
    have hnone := hall ho
    rw [get?_getFormControls (translated_name hrun ho).1] at hnone
    rw [hnone] at hsome
    cases hsome

theorem goes_on (hf : f.Plain) (hrun : f.translateFakeIds controls.keys controls = (controls', none))
    (hall : ∀ o ∈ controls', ∀ ctrl, f.control o = some ctrl → ctrl.Passes o controls' ∧ ctrl.Readable o controls')
    (hsome : (∃ o ∈ controls', (f.control o).isSome) ∨ f.allowEmpty = true) :
    ∃ json maxs, f.sessionApply Get controls = .ok (.collected json maxs controls') := by
  have hadd : f.sessionAdd Get controls'.keys controls' = .ok (controls', []) :=
    (sessionAdd_quiet_iff hf).2 fun o ho ctrl hc => (hall o ho ctrl hc).1
  obtain ⟨⟨json₀, maxs, cnt⟩, hcollect⟩ :
      ∃ r, controls'.keys.foldlM (f.collect controls') (.empty, .empty, 0) = .ok r := by
    apply collectAll_total_iff.2
    intro o ho ctrl hc
    exact (hall o ho ctrl (control_of_get? hc)).2
  exact ⟨_, _, sessionApply_of hrun hadd hcollect (hsome.imp_left (collected_some_iff hrun hcollect).2)⟩

/-- A submission goes on to the records just if its ids are found, each control that was submitted passes
and can be read, and one of them was, or none has to be. -/
theorem goes_on_iff (hf : f.Plain) : (∃ json maxs cs, f.sessionApply Get controls = .ok (.collected json maxs cs)) ↔
    (∀ fld ∈ controls, f.Known fld) ∧
      (∀ o ∈ f.translated controls, ∀ ctrl, f.control o = some ctrl →
        ctrl.Passes o (f.translated controls) ∧ ctrl.Readable o (f.translated controls)) ∧
        ((∃ o ∈ f.translated controls, (f.control o).isSome) ∨ f.allowEmpty = true) := by
  constructor
  · rintro ⟨json, maxs, cs, h⟩
    obtain ⟨hrun, hadd, json₀, cnt, hcollect, -, hcnt⟩ := sessionApply_collected hf h
    obtain rfl := translated_eq hrun
    refine ⟨translated_iff.1 hrun, fun o ho ctrl hc => ?_, hcnt.imp_left (collected_some_iff hrun hcollect).1⟩
    refine ⟨(sessionAdd_quiet_iff hf).1 hadd o ho ctrl hc, ?_⟩
    apply collectAll_total_iff.1 ⟨_, hcollect⟩ o ho ctrl
    exact (get?_getFormControls (translated_name hrun ho).1).trans hc
  · rintro ⟨hknown, hall, hsome⟩
    obtain ⟨json, maxs, h⟩ := goes_on hf (translated_iff.2 hknown) hall hsome
    exact ⟨json, maxs, _, h⟩

/-- A page with one field, which has to be filled in. -/
def namePage : ActiveForm where
  controls := [{ name := "person_name", required := true }]
  allowEmpty := false
  fakeIds := Dict.empty.set "a1" "person_name"
  fakeIdsReversed := Dict.empty.set "person_name" "a1"

theorem namePage_plain : namePage.Plain := by
  intro ctrl hm valid hv
  rw [List.mem_singleton.1 hm] at hv
  exact absurd hv List.not_mem_nil

/-- A name is submitted, once with something that every object has beside it. -/
def nameSent (name : String) : Obj := (Dict.empty.set "a1" (.str name)).set "toString" (.str "x")

example (name : String) :
    namePage.translated (nameSent name) = (Dict.empty.set "person_name" (.str name)).set (inheritedText "toString") (.str "x") :=
  rfl

theorem goes_on_iff_sample :
    (∃ json maxs cs, namePage.sessionApply (fun label => label) (nameSent "Ann") = .ok (.collected json maxs cs)) ∧
      (¬∃ json maxs cs, namePage.sessionApply (fun label => label) (nameSent "") = .ok (.collected json maxs cs)) ∧
      ¬∃ json maxs cs, namePage.sessionApply (fun label => label) ((nameSent "Ann").set "a2" .undefined) =
        .ok (.collected json maxs cs) := by
  have hknown : ∀ name, ∀ fld ∈ nameSent name, namePage.Known fld := by
    intro name fld hfld
    have hkeys : fld ∈ ["a1", "toString"] := hfld
    rcases List.mem_cons.1 hkeys with rfl | hkeys
    · exact .inl ⟨"person_name", by decide, rfl⟩
    · rw [List.mem_singleton.1 hkeys]
      exact .inr (by decide)
  refine ⟨(goes_on_iff namePage_plain).2 ⟨hknown "Ann", fun o ho ctrl hc => ?_, ?_⟩, fun h => ?_, fun h => ?_⟩
  · have hkeys : o ∈ ["person_name", inheritedText "toString"] := ho
    rcases List.mem_cons.1 hkeys with rfl | hkeys
    · cases hc
      exact ⟨⟨fun _ => rfl, .inr fun valid hv => absurd hv List.not_mem_nil⟩, .inr (.inr ⟨.str "Ann", rfl⟩)⟩
    · rw [List.mem_singleton.1 hkeys] at hc
      cases hc
  · exact .inl ⟨"person_name", by decide, rfl⟩
  · obtain ⟨-, hall, -⟩ := (goes_on_iff namePage_plain).1 h
    have hpasses := (hall "person_name" (by decide) _ rfl).1
    cases hpasses.1 rfl
  · obtain ⟨hids, -⟩ := (goes_on_iff namePage_plain).1 h
    rcases hids "a2" (by decide) with ⟨o, -, hget⟩ | ⟨-, hin⟩
    · cases hget
    · exact absurd hin (by decide)

/-- All that is collected comes from controls that passed, as the values that they stand for, or from hidden
values; and a required control that is missed was not submitted at all. -/
theorem collected_checked {json maxs cs : Obj} (hf : f.Plain)
    (h : f.sessionApply Get controls = .ok (.collected json maxs cs)) :
    (∀ k v, json.get? k = some v →
      (∃ o ctrl, f.Stores cs k v o ctrl ∧ ctrl.definesMax = false ∧ ctrl.Passes o cs) ∨
        ∃ ctrl ∈ f.controls, ctrl.name = k ∧ ctrl.hiddenValue = some v ∧ prop cs k = .undefined) ∧
    (∀ k v, maxs.get? k = some v → ∃ o ctrl w, f.Stores cs k w o ctrl ∧ ctrl.definesMax = true ∧
      ctrl.Passes o cs ∧ v = maximumOf w) ∧
    ∀ o ctrl, f.control o = some ctrl → ctrl.required = true → (hasValue (prop cs o) = true ↔ o ∈ cs) := by
  obtain ⟨-, hadd, json₀, cnt, hcollect, rfl, -⟩ := sessionApply_collected hf h
  have hpasses := (sessionAdd_quiet_iff hf).1 hadd
  have hnone : ∀ k v, (Dict.empty : Obj).get? k = some v → False := by
    intro k v hv
    cases hv
  have hsourced : Sourced f cs json₀ maxs := by
    have hfirst : Sourced f cs .empty .empty :=
      ⟨fun k v hv => (hnone k v hv).elim, fun k v hv => (hnone k v hv).elim⟩
    exact hfirst.collectAll (fun fld hfld => Dict.mem_keys.1 hfld) hcollect
  refine ⟨fun k v hv => ?_, fun k v hv => ?_, fun o ctrl hc hreq => ⟨fun hvalue => ?_, fun ho => ?_⟩⟩
  · rcases hide_get? hv with hv | ⟨ctrl, hmem, hrest⟩
    · obtain ⟨o, ctrl, hstores, hmax⟩ := hsourced.json k v hv
      exact .inl ⟨o, ctrl, hstores, hmax, hpasses o (Dict.mem_keys.2 hstores.submitted) ctrl hstores.control⟩
    · obtain ⟨e, he, rfl⟩ := List.mem_map.1 hmem
      have hctrl := control_of_get? (Dict.get?_eq_some.2 he)
      exact .inr ⟨e.2, (control_spec hctrl).1, hrest⟩
  · obtain ⟨o, ctrl, w, hstores, hmax, rfl⟩ := hsourced.maxs k v hv
    exact ⟨o, ctrl, w, hstores, hmax, hpasses o (Dict.mem_keys.2 hstores.submitted) ctrl hstores.control, rfl⟩
  · by_contra ho
    rw [prop, Dict.get?_eq_none.2 ho] at hvalue
    cases hvalue
  · exact (hpasses o (Dict.mem_keys.2 ho) ctrl hc).1 hreq

end ActiveForm
end JXPanel

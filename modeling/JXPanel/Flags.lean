import JXPanel.AppConfig
import JXPanel.Terminal

namespace JXPanel
set_option autoImplicit true

open Hierarchy

/-- What the recursion makes of a plan's value and the one that comes from above. -/
def flagBelow (val parentVal : JsVal) : JsVal := if JsVal.strictEq parentVal (.bool true) then val else parentVal

theorem strictEq_true_iff {v : JsVal} : JsVal.strictEq v (.bool true) = true ↔ v = .bool true := by
  cases v with
  | bool b => cases b <;> simp [JsVal.strictEq]
  | _ => simp [JsVal.strictEq]

@[simp] theorem flagBelow_true (v : JsVal) : flagBelow v (.bool true) = v := rfl

theorem foldr_flagBelow_all {vals : List JsVal} (h : ∀ v ∈ vals, v = .bool true) :
    vals.foldr flagBelow (.bool true) = .bool true := by
  induction vals with
  | nil => rfl
  | cons u vals ih =>
    rw [List.foldr_cons, ih fun v hv => h v (List.mem_cons_of_mem _ hv), flagBelow_true]
    exact h u List.mem_cons_self

/-- A run of values comes down to the highest one that is not `true` itself. -/
theorem foldr_flagBelow_at {pre post : List JsVal} {v : JsVal} (hpost : ∀ w ∈ post, w = .bool true)
    (hv : v ≠ .bool true) : (pre ++ v :: post).foldr flagBelow (.bool true) = v := by
  rw [List.foldr_append, List.foldr_cons, foldr_flagBelow_all hpost, flagBelow_true]
  induction pre with
  | nil => rfl
  | cons u pre ih => rw [List.foldr_cons, ih, flagBelow, if_neg (mt strictEq_true_iff.1 hv)]

theorem flags_cases (vals : List JsVal) : (∀ v ∈ vals, v = .bool true) ∨
    ∃ pre v post, vals = pre ++ v :: post ∧ (∀ w ∈ post, w = .bool true) ∧ v ≠ .bool true := by
  induction vals with
  | nil => exact .inl fun v hv => absurd hv List.not_mem_nil
  | cons u vals ih =>
    rcases ih with hall | ⟨pre, v, post, rfl, hpost, hv⟩
    · by_cases hu : u = .bool true
      · exact .inl (List.forall_mem_cons.2 ⟨hu, hall⟩)
      · exact .inr ⟨[], u, vals, rfl, hall, hu⟩
    · exact .inr ⟨u :: pre, v, post, rfl, hpost, hv⟩

/-- The highest value that is not `true` turns the flag on only if it is enabled and so are the
values below it. -/
def FlagsAgree (turnsOn : JsVal → Prop) (vals : List JsVal) : Prop :=
  ∀ pre v post, vals = pre ++ v :: post → (∀ w ∈ post, w = .bool true) → v ≠ .bool true → turnsOn v →
    Enabled v ∧ ∀ w ∈ pre, Enabled w

theorem enabled_true : Enabled (.bool true) := .inr (by decide)

theorem Enabled.truthy {v : JsVal} (h : Enabled v) : v.truthy = true := by
  have hfalse : ∀ t : String, t.toList.map Char.toLower ≠ "1".toList → t.toList.map Char.toLower ≠ "true".toList →
      v.toKey = t → False := by
    rintro t h₁ h₂ rfl
    exact h.elim h₁ h₂
  cases v with
  | undefined => exact (hfalse "undefined" (by decide) (by decide) rfl).elim
  | null => exact (hfalse "null" (by decide) (by decide) rfl).elim
  | bool b =>
    cases b with
    | false => exact (hfalse "false" (by decide) (by decide) rfl).elim
    | true => rfl
  | num n =>
    cases n with
    | int n =>
      by_cases hn : n = 0
      · subst hn
        exact (hfalse "0" (by decide) (by decide) rfl).elim
      · exact decide_eq_true hn
    | nan => exact (hfalse "NaN" (by decide) (by decide) rfl).elim
    | posInf => rfl
    | negInf => rfl
  | str t =>
    by_cases ht : t = ""
    · subst ht
      exact (hfalse "" (by decide) (by decide) rfl).elim
    · exact decide_eq_true ht
  | arr l => rfl
  | obj fs => rfl

/-- The value that comes down turns the flag on exactly when all are enabled, exactly when the highest
one that is not `true` agrees. -/
theorem foldr_flagBelow_iff {turnsOn : JsVal → Prop} (hon : ∀ v, Enabled v → turnsOn v) (vals : List JsVal) :
    (turnsOn (vals.foldr flagBelow (.bool true)) ↔ ∀ v ∈ vals, Enabled v) ↔ FlagsAgree turnsOn vals := by
  rcases flags_cases vals with hall | ⟨pre, v, post, rfl, hpost, hv⟩
  · rw [foldr_flagBelow_all hall]
    refine iff_of_true (iff_of_true (hon _ enabled_true) fun v hm => ?_) ?_
    · rw [hall v hm]
      exact enabled_true
    · intro pre v post he _ hne
      exact absurd (hall v (by simp [he])) hne
  · constructor
    · intro h pre' v' post' he hpost' hv' hturns
      rw [he, foldr_flagBelow_at hpost' hv'] at h
      have hall := h.1 hturns
      exact ⟨hall v' (by simp), fun w hw => hall w (List.mem_append_left _ hw)⟩
    · intro h
      rw [foldr_flagBelow_at hpost hv]
      constructor
      · intro hturns
        obtain ⟨hself, hpre⟩ := h pre v post rfl hpost hv hturns
        intro w hw
        rcases List.mem_append.1 hw with hw | hw
        · exact hpre w hw
        · rcases List.mem_cons.1 hw with rfl | hw
          · exact hself
          · rw [hpost w hw]
            exact enabled_true
      · intro hall
        exact hon v (hall v (by simp))

theorem Plan.get_field {P : Plan} {f : String} (h : f ∉ planKeys) : P.get f = prop P.fields f := by
  unfold get
  split <;> first | rfl | exact absurd (by decide) h

namespace Store
variable {s : Store} {P : Plan} {f : String}

/-- The plan above, which the root plan does not ask. -/
def flagParent (s : Store) (P : Plan) : Option Plan := if P.name = unlimitedPlanName then none else s.parentPlan P

/-- The values of a field on a plan and the plans above it below the root. -/
def chainFlags (s : Store) (f : String) (P : Plan) : List JsVal :=
  ((climb s.flagParent s.fuel P).filter fun Q => Q.name ≠ unlimitedPlanName).map fun Q => Q.get f

/-- A capability is enabled on a plan and on every plan above it below the root. -/
def EnabledUp (s : Store) (f : String) (P : Plan) : Prop :=
  ∀ Q, Relation.ReflTransGen (fun A B => s.flagParent A = some B) P Q → Q.name ≠ unlimitedPlanName → Enabled (Q.get f)

theorem parentPlan_stored {Q : Plan} (h : s.parentPlan P = some Q) : ∃ q, s.plans.get? q = some Q := by
  unfold parentPlan at h
  split at h
  · cases h
  · split at h
    · cases h
    · next q _ =>
      split at h
      · cases h
      · exact ⟨q, h⟩

/-- Every plan above is a stored one, so there are no more than those. -/
theorem flagParent_ends (hP : s.plans.get? p = some P) (h : ∃ n, Ends s.flagParent n P) : Ends s.flagParent s.fuel P := by
  classical
  obtain ⟨n, hn⟩ := h
  have hstored : ∀ m Q, Q ∈ climb s.flagParent m P → Q ∈ s.plans.entries.map Prod.snd := by
    intro m
    clear hn
    induction m generalizing p P with
    | zero => exact fun Q hQ => absurd hQ List.not_mem_nil
    | succ m ih =>
      intro Q hQ
      rw [climb] at hQ
      rcases List.mem_cons.1 hQ with rfl | hQ
      · exact List.mem_map.2 ⟨(p, Q), Dict.get?_eq_some.1 hP, rfl⟩
      · unfold flagParent at hQ
        split at hQ
        · exact absurd hQ List.not_mem_nil
        · cases hup : s.parentPlan P with
          | none =>
            rw [hup] at hQ
            exact absurd hQ List.not_mem_nil
          | some R =>
            rw [hup] at hQ
            obtain ⟨r, hr⟩ := parentPlan_stored hup
            exact ih hr Q hQ
  have hbound := hn.bound (s.plans.entries.map Prod.snd) fun m Q hQ _ => hstored m Q hQ
  rw [List.length_map] at hbound
  exact hbound

theorem getBool_eq (h : Ends s.flagParent n P) :
    s.getBool f n P = .ok ((((climb s.flagParent n P).filter fun Q => Q.name ≠ unlimitedPlanName).map
      fun Q => Q.get f).foldr flagBelow (.bool true)) := by
  induction n generalizing P with
  | zero => exact h.elim
  | succ n ih =>
    rw [getBool, climb]
    by_cases hname : P.name = unlimitedPlanName
    · have hnone : s.flagParent P = none := if_pos hname
      rw [if_pos hname, hnone, List.filter_cons_of_neg (by simpa using hname)]
      rfl
    · have hup : s.flagParent P = s.parentPlan P := if_neg hname
      rw [if_neg hname, hup, List.filter_cons_of_pos (by simpa using hname), List.map_cons, List.foldr_cons]
      cases hQ : s.parentPlan P with
      | none => rfl
      | some Q =>
        rw [hQ] at hup
        dsimp only
        rw [ih (h Q hup)]
        rfl

theorem getMaximum_ends (h : Ends s.flagParent n P) : ∃ v, s.getMaximum f n P = .ok v := by
  induction n generalizing P with
  | zero => exact h.elim
  | succ n ih =>
    rw [getMaximum]
    by_cases hname : P.name = unlimitedPlanName
    · rw [if_pos hname]
      exact ⟨_, rfl⟩
    · have hup : s.flagParent P = s.parentPlan P := if_neg hname
      rw [if_neg hname]
      cases hQ : s.parentPlan P with
      | none => exact ⟨_, rfl⟩
      | some Q =>
        rw [hQ] at hup
        obtain ⟨v, hv⟩ := ih (h Q hup)
        dsimp only
        rw [hv]
        exact ⟨_, rfl⟩

theorem enabledUp_iff (h : Ends s.flagParent s.fuel P) : s.EnabledUp f P ↔ ∀ v ∈ s.chainFlags f P, Enabled v := by
  unfold EnabledUp chainFlags
  constructor
  · intro hup v hv
    obtain ⟨Q, hQ, rfl⟩ := List.mem_map.1 hv
    obtain ⟨hmem, hname⟩ := List.mem_filter.1 hQ
    exact hup Q (h.mem_climb_iff.1 hmem) (of_decide_eq_true hname)
  · intro hall Q hQ hname
    exact hall _ (List.mem_map.2 ⟨Q, List.mem_filter.2 ⟨h.mem_climb_iff.2 hQ, decide_eq_true hname⟩, rfl⟩)

/-- The settings that are capabilities. -/
theorem isAllow_fields : ∀ e ∈ cfgFields, isAllow e.2 = true →
    e.1 ∉ planKeys ∧ e.2 ≠ "allowMonitoringAPI" ∧ e.2 ≠ "monitor" ∧ ∀ e' ∈ cfgFields, e'.2 = e.2 → e'.1 = e.1 := by
  decide

theorem settingOf_flag (v : JsVal) : settingOf v true = some (if v.truthy then v else .bool false) := by
  unfold settingOf
  cases hv : v.truthy with
  | true => simp [hv]
  | false => simp [JsVal.strictEq]

/-- The setting that a capability of the plan comes to, if the plan has it. -/
theorem appConfig_flag {D : Domain} {cfg : Obj} {c : String} (hf : (f, c) ∈ cfgFields) (hc : isAllow c = true)
    (hD : f ∉ P.fields → f ∉ D.fields) (hM : f ∉ P.planMaximums) (h : s.appConfig secured dir D P = .ok cfg)
    {v : JsVal} (hv : s.GetBool P f = .ok v) :
    cfg.get? c = if f ∈ P.fields then some (if v.truthy then v else .bool false) else none := by
  obtain ⟨-, hapi, hmonitor, hinj⟩ := isAllow_fields (f, c) hf hc
  have hnodup : (cfgFields.map Prod.fst).Nodup := by decide
  have hlookup : Dict.lookup cfgFields f = some c := (Dict.lookup_eq_some hnodup).2 hf
  have hone : ∀ o, Dict.lookup cfgFields o = some c → o = f := fun o ho =>
    hinj (o, c) ((Dict.lookup_eq_some hnodup).1 ho) rfl
  unfold appConfig at h
  obtain ⟨json₁, h₁, h⟩ := Collect.bind_ok.1 h
  obtain ⟨json₂, h₂, h⟩ := Collect.bind_ok.1 h
  obtain ⟨json₃, h₃, h⟩ := Collect.bind_ok.1 h
  cases h
  have hmax : json₃.get? c = json₂.get? c := get?_addSettings_frame h₃ fun o ho hoc =>
    absurd (hone o hoc ▸ ho) hM
  rw [Dict.get?_set_ne _ _ hapi.symm.symm, hmax]
  by_cases hP : f ∈ P.fields
  · obtain ⟨w, hw, hget⟩ := get?_addSettings h₂ P.fields.keys_nodup hlookup hc hP hone
    rw [hv] at hw
    cases hw
    rw [hget, settingOf_flag, if_pos hP, Option.some_or]
  · have hplan : json₂.get? c = json₁.get? c := get?_addSettings_frame h₂ fun o ho hoc =>
      absurd (hone o hoc ▸ ho) hP
    have hdomain : json₁.get? c = (Dict.empty.set "monitor" (monitorCfg secured dir)).get? c :=
      get?_addSettings_frame h₁ fun o ho hoc => absurd (hone o hoc ▸ ho) (hD hP)
    rw [hplan, hdomain, Dict.get?_set_ne _ _ hmonitor, if_neg hP]
    rfl

/-- A setting exists, and turns a capability on, only where the plan has the field. -/
def SettingAgrees (s : Store) (turnsOn : JsVal → Prop) (f : String) (P : Plan) : Prop :=
  if f ∈ P.fields then FlagsAgree turnsOn (s.chainFlags f P) else P.name ≠ unlimitedPlanName

theorem setting_iff {turnsOn : JsVal → Prop} (hon : ∀ v, Enabled v → turnsOn v)
    (hoff : ∀ v, turnsOn v → v.truthy = true) (h : Ends s.flagParent s.fuel P) (hkey : f ∉ planKeys) {v : JsVal}
    (hv : (s.chainFlags f P).foldr flagBelow (.bool true) = v) {cfg : Obj} {c : String}
    (hcfg : cfg.get? c = if f ∈ P.fields then some (if v.truthy then v else .bool false) else none) :
    ((turnsOn (prop cfg c)) ↔ s.EnabledUp f P) ↔ s.SettingAgrees turnsOn f P := by
  unfold SettingAgrees
  by_cases hP : f ∈ P.fields
  · have hsame : turnsOn (prop cfg c) ↔ turnsOn v := by
      rw [prop, hcfg, if_pos hP, Option.getD_some]
      cases ht : v.truthy with
      | true => rfl
      | false =>
        have hfalse : ¬turnsOn (.bool false) := fun hb => by cases hoff _ hb
        refine iff_of_false hfalse fun hb => ?_
        rw [hoff v hb] at ht
        cases ht
    rw [if_pos hP, hsame, enabledUp_iff h, ← hv]
    exact foldr_flagBelow_iff hon _
  · have hoffed : ¬turnsOn (prop cfg c) := by
      rw [prop, hcfg, if_neg hP]
      exact fun hb => by cases hoff _ hb
    rw [if_neg hP]
    constructor
    · intro hiff hroot
      apply hoffed
      apply hiff.2
      intro Q hQ hname
      have hnone : s.flagParent P = none := if_pos hroot
      rcases hQ.cases_head with rfl | ⟨R, hR, -⟩
      · exact absurd hroot hname
      · rw [hnone] at hR
        cases hR
    · intro hroot
      refine iff_of_false hoffed fun hup => ?_
      have hself := hup P .refl hroot
      rw [Plan.get_field hkey, prop, Dict.get?_eq_none.2 hP] at hself
      cases hself.truthy

/-- The value of a capability, and the setting made of it, is enabling exactly when the plan and all
plans above it have it enabled, exactly when the highest value that is not `true` agrees with those
below it. The setting is read as the values are, or by whether it counts as true. -/
theorem flag_is_conjunction_iff (hP : s.plans.get? p = some P) (h : ∃ n, Ends s.flagParent n P) (f : String) :
    ∃ v, s.GetBool P f = .ok v ∧ ((Enabled v ↔ s.EnabledUp f P) ↔ FlagsAgree Enabled (s.chainFlags f P)) ∧
      ∀ c, (f, c) ∈ cfgFields → isAllow c = true → f ∉ P.planMaximums →
        ∀ secured dir D, (f ∉ P.fields → f ∉ D.fields) → ∃ cfg, s.appConfig secured dir D P = .ok cfg ∧
          ((Enabled (prop cfg c) ↔ s.EnabledUp f P) ↔ s.SettingAgrees Enabled f P) ∧
          (((prop cfg c).truthy = true ↔ s.EnabledUp f P) ↔ s.SettingAgrees (fun v => v.truthy = true) f P) := by
  have hends := flagParent_ends hP h
  have hbool : ∀ o, s.GetBool P o = .ok ((s.chainFlags o P).foldr flagBelow (.bool true)) := fun o => getBool_eq hends
  refine ⟨_, hbool f, ?_, ?_⟩
  · rw [enabledUp_iff hends]
    exact foldr_flagBelow_iff (fun _ => id) _
  · intro c hf hc hM secured dir D hD
    have htotal : ∃ cfg, s.appConfig secured dir D P = .ok cfg := by
      unfold appConfig
      apply Collect.bind_total
      · exact addSettings_total _ fun o _ => ⟨_, rfl⟩
      intro json _
      apply Collect.bind_total
      · exact addSettings_total _ fun o _ => ⟨_, hbool o⟩
      intro json' _
      apply Collect.bind_total
      · exact addSettings_total _ fun o _ => getMaximum_ends hends
      intro json'' _
      exact ⟨_, rfl⟩
    obtain ⟨cfg, hcfg⟩ := htotal
    have hget := appConfig_flag hf hc hD hM hcfg (hbool f)
    have hkey := (isAllow_fields (f, c) hf hc).1
    refine ⟨cfg, hcfg, ?_, ?_⟩
    · exact setting_iff (fun _ => id) (fun _ => Enabled.truthy) hends hkey rfl hget
    · exact @setting_iff _ _ _ (fun v => v.truthy = true) (fun _ => Enabled.truthy) (fun _ => id) hends hkey _ rfl _ _ hget

/-- Gold has a capability as a text, or as it is given, and silver below it does not have it. -/
def flagCalls (gold : JsVal) : List Call :=
  [.addUser unlimitedPlanName "ann" .empty,
    .addPlan (some "ann") "gold" ((planOpts 5 5).set "plan_sys_exec" gold),
    .addUser "gold" "bob" .empty,
    .addPlan (some "bob") "silver" ((planOpts 5 5).set "plan_sys_exec" (.bool false))]

/-- Of silver and the plans above it: whether the climb ends, and which values are `true` and enabled. -/
def silverFlags (s : Store) : Option (Bool × List (Bool × Bool)) :=
  (s.plans.get? "silver").map fun P => (decide ((climb s.flagParent 4 P).length < 4),
    (s.chainFlags "plan_sys_exec" P).map fun v => (v.strictEq (.bool true), decide (Enabled v)))

theorem silverFlags_pair {a b a' b' : Bool} (h : silverFlags s = some (true, [(a, a'), (b, b')])) :
    ∃ P v w, s.plans.get? "silver" = some P ∧ (∃ n, Ends s.flagParent n P) ∧ s.chainFlags "plan_sys_exec" P = [v, w] ∧
      v.strictEq (.bool true) = a ∧ decide (Enabled v) = a' ∧ w.strictEq (.bool true) = b ∧ decide (Enabled w) = b' := by
  obtain ⟨P, hP, hflags⟩ := Option.map_eq_some_iff.1 h
  obtain ⟨hends, hlist⟩ := Prod.mk.inj hflags
  obtain ⟨v, l, hl, hv, hrest⟩ := List.map_eq_cons_iff.1 hlist
  obtain ⟨w, l', rfl, hw, hnil⟩ := List.map_eq_cons_iff.1 hrest
  obtain rfl := List.map_eq_nil_iff.1 hnil
  obtain ⟨hv₁, hv₂⟩ := Prod.mk.inj hv
  obtain ⟨hw₁, hw₂⟩ := Prod.mk.inj hw
  exact ⟨P, v, w, hP, ⟨4, ends_of_length (of_decide_eq_true hends)⟩, hl, hv₁, hv₂, hw₁, hw₂⟩

theorem flag_is_conjunction_sample : ∃ P v, (installed.run (flagCalls (.bool true))).plans.get? "silver" = some P ∧
    (installed.run (flagCalls (.bool true))).GetBool P "plan_sys_exec" = .ok v ∧
    (Enabled v ↔ (installed.run (flagCalls (.bool true))).EnabledUp "plan_sys_exec" P) := by
  obtain ⟨P, v, w, hP, hends, hflags, -, hoff, htrue, -⟩ := silverFlags_pair
    (show silverFlags (installed.run (flagCalls (.bool true))) = some (true, [(false, false), (true, true)]) by
      decide +kernel)
  obtain ⟨r, hr, hiff, -⟩ := flag_is_conjunction_iff hP hends "plan_sys_exec"
  refine ⟨P, r, hP, hr, hiff.2 ?_⟩
  rw [hflags]
  intro pre u post he hpost hu hturns
  cases pre with
  | nil =>
    cases he
    exact absurd hturns (of_decide_eq_false hoff)
  | cons x pre =>
    cases pre with
    | nil =>
      cases he
      exact absurd (strictEq_true_iff.1 htrue) hu
    | cons y pre => cases pre <;> cases he

/-- The text of gold wins over the plan below it that has the capability switched off. -/
theorem text_overrides_plan_below : ¬∀ (s : Store) (p : String) (P : Plan) (f : String), s.plans.get? p = some P →
    (∃ n, Ends s.flagParent n P) → ∃ v, s.GetBool P f = .ok v ∧ (Enabled v ↔ s.EnabledUp f P) := by
  intro h
  obtain ⟨P, v, w, hP, hends, hflags, -, hoff, hne, hon⟩ := silverFlags_pair
    (show silverFlags (installed.run (flagCalls (.str "1"))) = some (true, [(false, false), (false, true)]) by
      decide +kernel)
  obtain ⟨r, hr, hiff⟩ := h _ "silver" P "plan_sys_exec" hP hends
  have hbool := getBool_eq (f := "plan_sys_exec") (flagParent_ends hP hends)
  rw [GetBool, hbool] at hr
  have hfold : ([v] ++ w :: []).foldr flagBelow (.bool true) = w :=
    foldr_flagBelow_at (fun x hx => absurd hx List.not_mem_nil)
      (mt strictEq_true_iff.2 (by rw [hne]; exact Bool.false_ne_true))
  have hw : r = w := by
    rw [← Except.ok.inj hr, ← hfold]
    exact congrArg (fun l => l.foldr flagBelow (.bool true)) hflags
  rw [hw, enabledUp_iff (flagParent_ends hP hends), hflags] at hiff
  exact absurd (hiff.1 (of_decide_eq_true hon) v List.mem_cons_self) (of_decide_eq_false hoff)

end Store
end JXPanel

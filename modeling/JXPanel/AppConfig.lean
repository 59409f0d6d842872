import JXPanel.Maximums
import JXPanel.Growth

namespace JXPanel
set_option autoImplicit true

open Hierarchy

/-- The settings of plans and domains that an application is configured with, and their names
in the configuration. -/
def cfgFields : List (String × String) :=
  [("plan_memory", "maxMemory"), ("plan_cpu", "maxCPU"), ("plan_cpu_interval", "maxCPUInterval"),
    ("plan_custom_socket", "allowCustomSocketPort"), ("plan_sys_exec", "allowSysExec"),
    ("plan_local_native_modules", "allowLocalNativeModules"),
    ("port_http", "portTCP"), ("port_https", "portTCPS")]

def isAllow (field_name : String) : Bool := field_name.toList.take 5 == "allow".toList

/-- What `add` puts into the configuration for a value, if anything. -/
def settingOf (value : JsVal) (isBool : Bool) : Option JsVal :=
  let value := if !value.truthy && isBool then .bool false else value
  if !value.truthy && !value.strictEq (.bool false) && !value.strictEq (.num (.int 0)) then none
  else if !isBool && value.strictEq defaultMaximum then none
  else some value

def addSetting (json : Obj) (field_name : String) (value : JsVal) (isBool : Bool) : Obj :=
  match settingOf value isBool with
  | none => json
  | some value => json.set field_name value

/-- One of the loops that add the properties of a record with the given names. -/
def addSettings (read : String → Js JsVal) (pick : String → Bool) (isBool : Bool) :
    List String → Obj → Js Obj
  | [], json => .ok json
  | o :: os, json =>
    match Dict.lookup cfgFields o with
    | none => addSettings read pick isBool os json
    | some field_name =>
      if pick field_name then do
        let value ← read o
        addSettings read pick isBool os (addSetting json field_name value isBool)
      else addSettings read pick isBool os json

/-- The `monitor` part of a configuration. -/
def monitorCfg (isMonitorSecured : Bool) (dirMonitorCertificates : String) : JsVal :=
  if isMonitorSecured then
    .obj [("https", .obj
      [("httpsKeyLocation", .str (dirMonitorCertificates ++ "server.key")),
        ("httpsCertLocation", .str (dirMonitorCertificates ++ "server.crt"))])]
  else .obj []

namespace Store

/-- The configuration that `appGetOptions` makes of a domain and the plan of its owner. The
properties that the records have fields for are no settings. -/
def appConfig (s : Store) (isMonitorSecured : Bool) (dirMonitorCertificates : String)
    (domain : Domain) (plan : Plan) : Js Obj := do
  let json := Dict.empty.set "monitor" (monitorCfg isMonitorSecured dirMonitorCertificates)
  let json ← addSettings (fun o => .ok (prop domain.fields o)) (fun _ => true) false
    domain.fields.keys json
  let json ← addSettings (fun o => s.GetBool plan o) isAllow true plan.fields.keys json
  let json ← addSettings (fun o => s.GetMaximum plan o) (fun _ => true) false
    plan.planMaximums.keys json
  return json.set "allowMonitoringAPI" (.bool (prop s.config "jx_monitor_api").truthy)

/-- The domain, its owner and his plan, or why there is no application. -/
def appRecords (s : Store) (domain_name : String) : Except String (Domain × User × Plan) :=
  match s.getDomain? domain_name with
  | none => .error "DomainNotFound"
  | some domain =>
    match s.users.get? domain.owner with
    | none => .error "UserUnknown"
    | some user =>
      match s.plans.get? user.plan with
      | none => .error "PlanInvalid"
      | some plan => .ok (domain, user, plan)

end Store

section Loops
variable {read : String → Js JsVal} {pick : String → Bool} {isBool : Bool}

theorem get?_addSetting_ne (json : Obj) (v : JsVal) (h : c ≠ c') :
    (addSetting json c' v isBool).get? c = json.get? c := by
  unfold addSetting
  cases settingOf v isBool with
  | none => rfl
  | some w => exact Dict.get?_set_ne json w h

theorem get?_addSetting_self (json : Obj) (v : JsVal) :
    (addSetting json c v isBool).get? c = (settingOf v isBool).or (json.get? c) := by
  unfold addSetting
  cases settingOf v isBool with
  | none => rfl
  | some w => exact Dict.get?_set_self json c w

/-- A loop over names of other settings leaves a setting as it is. -/
theorem get?_addSettings_frame {os : List String} {json json' : Obj}
    (h : addSettings read pick isBool os json = .ok json')
    (ho : ∀ o ∈ os, Dict.lookup cfgFields o = some c → pick c = false) :
    json'.get? c = json.get? c := by
  induction os generalizing json with
  | nil =>
    cases h
    rfl
  | cons o os ih =>
    have hos : ∀ x ∈ os, Dict.lookup cfgFields x = some c → pick c = false :=
      fun x hx => ho x (List.mem_cons_of_mem _ hx)
    rw [addSettings] at h
    cases hc : Dict.lookup cfgFields o with
    | none =>
      rw [hc] at h
      exact ih h hos
    | some c' =>
      rw [hc] at h
      dsimp only at h
      cases hp : pick c' with
      | false =>
        rw [hp] at h
        exact ih h hos
      | true =>
        rw [hp] at h
        obtain ⟨v, -, h⟩ := Collect.bind_ok.1 h
        rw [ih h hos]
        apply get?_addSetting_ne
        rintro rfl
        exact absurd (ho o List.mem_cons_self hc) (by simp [hp])

/-- A loop over names of which one belongs to a setting adds what is read there. -/
theorem get?_addSettings {os : List String} {json json' : Obj}
    (h : addSettings read pick isBool os json = .ok json') (hnd : os.Nodup)
    (hf : Dict.lookup cfgFields f = some c) (hp : pick c = true) (hmem : f ∈ os)
    (hinj : ∀ o, Dict.lookup cfgFields o = some c → o = f) :
    ∃ v, read f = .ok v ∧ json'.get? c = (settingOf v isBool).or (json.get? c) := by
  induction os generalizing json with
  | nil => exact absurd hmem List.not_mem_nil
  | cons o os ih =>
    obtain ⟨ho, hnd⟩ := List.nodup_cons.1 hnd
    rw [addSettings] at h
    by_cases hof : o = f
    · subst hof
      rw [hf] at h
      dsimp only at h
      rw [hp] at h
      obtain ⟨v, hv, h⟩ := Collect.bind_ok.1 h
      refine ⟨v, hv, ?_⟩
      rw [get?_addSettings_frame h, get?_addSetting_self]
      intro x hx hxc
      obtain rfl := hinj x hxc
      exact absurd hx ho
    · have hmem : f ∈ os := (List.mem_cons.1 hmem).resolve_left (Ne.symm hof)
      cases hc : Dict.lookup cfgFields o with
      | none =>
        rw [hc] at h
        exact ih h hnd hmem
      | some c' =>
        rw [hc] at h
        have hne : c ≠ c' := by
          rintro rfl
          exact hof (hinj o hc)
        dsimp only at h
        cases hp' : pick c' with
        | false =>
          rw [hp'] at h
          exact ih h hnd hmem
        | true =>
          rw [hp'] at h
          obtain ⟨w, -, h⟩ := Collect.bind_ok.1 h
          obtain ⟨v, hv, hget⟩ := ih h hnd hmem
          refine ⟨v, hv, ?_⟩
          rw [hget, get?_addSetting_ne json w hne]

theorem addSettings_total {os : List String} (json : Obj) (h : ∀ o ∈ os, ∃ v, read o = .ok v) :
    ∃ json', addSettings read pick isBool os json = .ok json' := by
  induction os generalizing json with
  | nil => exact ⟨json, rfl⟩
  | cons o os ih =>
    have hos : ∀ x ∈ os, ∃ v, read x = .ok v := fun x hx => h x (List.mem_cons_of_mem _ hx)
    obtain ⟨v, hv⟩ := h o List.mem_cons_self
    rw [addSettings]
    cases Dict.lookup cfgFields o with
    | none => exact ih json hos
    | some c =>
      dsimp only
      split
      · rw [hv]
        exact ih _ hos
      · exact ih json hos

end Loops

/-- The settings that are limits, and their names in the configuration. -/
def numericLimits : List (String × String) := cfgFields.take 3

theorem numericLimits_lookup : ∀ e ∈ numericLimits, Dict.lookup cfgFields e.1 = some e.2 := by
  decide

theorem cfgFields_injective : ∀ e ∈ numericLimits, ∀ e' ∈ cfgFields, e'.2 = e.2 → e'.1 = e.1 := by
  decide

theorem lookup_numericLimits (he : e ∈ numericLimits) (h : Dict.lookup cfgFields o = some e.2) :
    o = e.1 := by
  have hnd : (cfgFields.map Prod.fst).Nodup := by decide
  exact cfgFields_injective e he (o, e.2) ((Dict.lookup_eq_some hnd).1 h) rfl

theorem settingOf_limit (l : Option Int) (hl : l ≠ some (-1)) {b : JsVal}
    (hb : settingOf b false = none) :
    settingOf (l.elim b fun m => .num (.int m)) false = l.map fun m => .num (.int m) := by
  cases l with
  | none => exact hb
  | some m =>
    have hm : m ≠ -1 := fun h => hl (congrArg some h)
    by_cases h0 : m = 0
    · subst h0
      rfl
    · simp [settingOf, JsVal.truthy, JsVal.strictEq, defaultMaximum, h0, hm]

namespace Store

/-- Domains carry no settings of plans. -/
def DomainsPlain (s : Store) : Prop :=
  ∀ d D, s.getDomain? d = some D → ∀ e ∈ numericLimits, e.1 ∉ D.fields

variable {s : Store}

theorem getBool_total (hn : Named s) (f : String)
    (hP : s.plans.get? p = some P) (he : Ends s.parentUp n p) :
    ∃ v, s.getBool f n P = .ok v := by
  induction n generalizing p P with
  | zero => exact he.elim
  | succ n ih =>
    rw [getBool]
    split
    · exact ⟨_, rfl⟩
    · cases hQ : s.parentPlan P with
      | none => exact ⟨_, rfl⟩
      | some Q =>
        obtain ⟨q, hup, hq⟩ := parentPlan_up (hn.plan p P hP).1 hQ
        obtain ⟨v, hv⟩ := ih hq (he q hup)
        dsimp only
        rw [hv]
        exact ⟨_, rfl⟩

/-- A domain of a consistent store has an owner with a plan. -/
theorem Integrity.appRecords (hi : Integrity s) (hd : d ∈ s.domains) :
    ∃ D U P, s.getDomain? d = some D ∧ s.plans.get? U.plan = some P ∧
      s.appRecords d = .ok (D, U, P) := by
  obtain ⟨D, hD⟩ := Option.isSome_iff_exists.1 (hi.filled d hd)
  obtain ⟨U, hU, -⟩ := mem_ownDomains.1 ((hi.domain d D.owner).1 (domainOwner_eq.2 ⟨D, hD, rfl⟩))
  obtain ⟨P, hP⟩ := Dict.mem_iff.1 (mem_plans_of_seat ((hi.seat _ _).1 (planOf_of_get? hU)))
  refine ⟨D, U, P, hD, hP, ?_⟩
  rw [Store.appRecords, hD]
  dsimp only
  rw [hU]
  dsimp only
  rw [hP]

section Config
variable (hi : Integrity s) (hn : Named s) (hc : Climbs s)
include hi hn hc

theorem GetMaximum_eq (f : String) (hP : s.plans.get? p = some P) :
    s.GetMaximum P f = .ok ((s.chainMaximums f p).foldr lesserMaximum defaultMaximum) :=
  getMaximum_eq hi hn f hP (hc.ends p)

theorem appConfig_total (secured : Bool) (dir : String) (D : Domain)
    (hP : s.plans.get? p = some P) : ∃ cfg, s.appConfig secured dir D P = .ok cfg := by
  unfold appConfig
  apply Collect.bind_total
  · exact addSettings_total _ fun o _ => ⟨_, rfl⟩
  intro json _
  apply Collect.bind_total
  · exact addSettings_total _ fun o _ => getBool_total hn o hP (hc.ends p)
  intro json' _
  apply Collect.bind_total
  · exact addSettings_total _ fun o _ => ⟨_, GetMaximum_eq hi hn hc o hP⟩
  intro json'' _
  exact ⟨_, rfl⟩

/-- A limit gets into the configuration as the least one below the first missing value. -/
theorem appConfig_limit (hd : s.DomainsPlain) (hD : s.getDomain? d = some D)
    (hP : s.plans.get? p = some P) (he : e ∈ numericLimits)
    (hv : ∀ v ∈ s.chainMaximums e.1 p, IntOrMissing v)
    (h : s.appConfig secured dir D P = .ok cfg) :
    cfg.get? e.2 = (leastLimit (beforeGap (s.chainMaximums e.1 p))).map fun m => .num (.int m) := by
  unfold appConfig at h
  obtain ⟨json₁, h₁, h⟩ := Collect.bind_ok.1 h
  obtain ⟨json₂, h₂, h⟩ := Collect.bind_ok.1 h
  obtain ⟨json₃, h₃, h⟩ := Collect.bind_ok.1 h
  cases h
  have hfix : e.2 ≠ "allowMonitoringAPI" ∧ e.2 ≠ "monitor" ∧ isAllow e.2 = false := by
    have hall : ∀ e ∈ numericLimits, e.2 ≠ "allowMonitoringAPI" ∧ e.2 ≠ "monitor" ∧
      isAllow e.2 = false := by decide
    exact hall e he
  have hbase : json₂.get? e.2 = none := by
    rw [get?_addSettings_frame h₂ fun _ _ _ => hfix.2.2, get?_addSettings_frame h₁,
      Dict.get?_set_ne _ _ hfix.2.1]
    · rfl
    · intro o ho hoc
      obtain rfl := lookup_numericLimits he hoc
      exact absurd ho (hd d D hD e he)
  rw [Dict.get?_set_ne _ _ hfix.1]
  by_cases hmem : e.1 ∈ P.planMaximums
  · obtain ⟨v, hval, hget⟩ := get?_addSettings h₃ P.planMaximums.keys_nodup
      (numericLimits_lookup e he) rfl hmem fun o => lookup_numericLimits he
    rw [GetMaximum_eq hi hn hc e.1 hP] at hval
    cases hval
    rw [hget, hbase, Option.or_none, foldr_lesserMaximum_gap _ hv]
    apply settingOf_limit
    · intro hm
      exact leastLimit_ne hm rfl
    · split <;> rfl
  · have hframe : json₃.get? e.2 = none := by
      rw [get?_addSettings_frame h₃, hbase]
      intro o ho hoc
      obtain rfl := lookup_numericLimits he hoc
      exact absurd ho hmem
    have hgap : beforeGap (s.chainMaximums e.1 p) = [] := by
      rw [chainMaximums, limitChain, fuel, climb]
      by_cases htop : p = unlimitedPlanName
      · rw [List.takeWhile_cons_of_neg (by simpa using htop)]
        rfl
      · rw [List.takeWhile_cons_of_pos (by simpa using htop), List.map_cons,
          maximumAt_of_get? hP, prop, Dict.get?_eq_none.2 hmem]
        rfl
    rw [hframe, hgap]
    rfl

/-- A maximum is the least limit of the chain of plans just when no plan on it that lacks the
field hides a lower limit or the lack of any, and an application gets that limit just when none
hides a lower one. -/
theorem maximum_is_least_limit (hd : s.DomainsPlain) :
    (∀ p P f, s.plans.get? p = some P → (∀ v ∈ s.chainMaximums f p, IntOrMissing v) →
      (s.GetMaximum P f = .ok (limitVal (leastLimit (s.chainMaximums f p))) ↔
        GapHarmless (s.chainMaximums f p))) ∧
    ∀ secured dir, ∀ d ∈ s.domains, ∃ D U P cfg, s.appRecords d = .ok (D, U, P) ∧
      s.appConfig secured dir D P = .ok cfg ∧
      ∀ e ∈ numericLimits, (∀ v ∈ s.chainMaximums e.1 U.plan, IntOrMissing v) →
        (cfg.get? e.2 = (leastLimit (s.chainMaximums e.1 U.plan)).map (fun m => .num (.int m)) ↔
          GapHides (s.chainMaximums e.1 U.plan)) := by
  constructor
  · intro p P f hP hv
    rw [GetMaximum_eq hi hn hc f hP, Except.ok.injEq]
    exact foldr_eq_leastLimit_iff _ hv
  · intro secured dir d hmem
    obtain ⟨D, U, P, hD, hP, hrec⟩ := hi.appRecords hmem
    obtain ⟨cfg, hcfg⟩ := appConfig_total hi hn hc secured dir D hP
    refine ⟨D, U, P, cfg, hrec, hcfg, ?_⟩
    intro e he hv
    rw [appConfig_limit hi hn hc hd hD hP he hv hcfg, ← leastLimit_eq_iff, eq_comm]
    have hinj : Function.Injective fun m : Int => JsVal.num (.int m) := by
      intro a b hab
      exact JsNum.int.inj (JsVal.num.inj hab)
    exact (Option.map_injective hinj).eq_iff

end Config

/-- What a plan with a limit of memory is made of. -/
def memoryOpts (n : Int) : Obj :=
  Dict.ofList
    [("maxDomainCount", .num (.int 5)), ("maxUserCount", .num (.int 5)),
      ("canCreatePlan", .bool true), ("canCreateUser", .bool true),
      ("planMaximums", .obj [("plan_memory", .num (.int n))])]

/-- Gold limits the memory, and silver below it was made without that field. -/
def limitCalls : List Call :=
  [.addUser unlimitedPlanName "ann" .empty, .addPlan (some "ann") "gold" (memoryOpts 100),
    .addUser "gold" "bob" .empty, .addPlan (some "bob") "silver" (planOpts 5 5),
    .addUser "silver" "carl" .empty, .addDomain "carl" "carl.org" .empty]

theorem wholeLimits_memoryOpts (n : Int) : WholeLimits (memoryOpts n) := by
  intro k hk _
  rcases List.mem_pair.1 hk with rfl | rfl
  · exact ⟨5, rfl⟩
  · exact ⟨5, rfl⟩

theorem plainOpts_memoryOpts (n : Int) : PlainOpts (memoryOpts n) := by
  have hkeys : (memoryOpts n).keys =
      ["maxDomainCount", "maxUserCount", "canCreatePlan", "canCreateUser", "planMaximums"] := rfl
  intro k hk hm
  rw [← Dict.mem_keys, hkeys] at hm
  revert k
  decide

theorem reached_limitCalls : Reached (fun _ c => Adds c) (installed.run limitCalls) := by
  apply Runs.Reached.start.run
  exact ⟨⟨by decide, by decide, plainOpts_empty⟩,
    ⟨by decide, by decide, plainOpts_memoryOpts 100, wholeLimits_memoryOpts 100⟩,
    ⟨by decide, by decide, plainOpts_empty⟩,
    ⟨by decide, by decide, plainOpts_planOpts 5 5, wholeLimits_planOpts 5 5⟩,
    ⟨by decide, by decide, plainOpts_empty⟩, plainOpts_empty, trivial⟩

/-- Gold limits the memory, silver leaves it open, and bronze asks for more than gold has. -/
def layeredCalls : List Call :=
  [.addUser unlimitedPlanName "ann" .empty, .addPlan (some "ann") "gold" (memoryOpts 100),
    .addUser "gold" "bob" .empty, .addPlan (some "bob") "silver" (memoryOpts (-1)), .addUser "silver" "carl" .empty,
    .addPlan (some "carl") "bronze" (memoryOpts 300), .addUser "bronze" "dave" .empty,
    .addDomain "dave" "dave.org" .empty]

theorem reached_layeredCalls : Reached (fun _ c => Adds c) (installed.run layeredCalls) := by
  apply Runs.Reached.start.run
  exact ⟨⟨by decide, by decide, plainOpts_empty⟩,
    ⟨by decide, by decide, plainOpts_memoryOpts 100, wholeLimits_memoryOpts 100⟩,
    ⟨by decide, by decide, plainOpts_empty⟩,
    ⟨by decide, by decide, plainOpts_memoryOpts (-1), wholeLimits_memoryOpts (-1)⟩,
    ⟨by decide, by decide, plainOpts_empty⟩,
    ⟨by decide, by decide, plainOpts_memoryOpts 300, wholeLimits_memoryOpts 300⟩,
    ⟨by decide, by decide, plainOpts_empty⟩, plainOpts_empty, trivial⟩

theorem domainsPlain_layeredCalls : (installed.run layeredCalls).DomainsPlain := by
  intro d D hD e _ hm
  have hmem : d ∈ (installed.run layeredCalls).domains.keys := by
    obtain ⟨D', hD', -⟩ := Option.bind_eq_some_iff.1 hD
    exact Dict.mem_of_get? hD'
  obtain rfl : d = "dave.org" := List.mem_singleton.1 hmem
  have hkeys := eq_of_map (f := fun D => D.fields.keys) (b := []) (by rfl) hD
  rw [← Dict.mem_keys, hkeys] at hm
  exact List.not_mem_nil hm

theorem maximum_is_least_limit_sample :
    (∃ P, (installed.run layeredCalls).plans.get? "bronze" = some P ∧
      (installed.run layeredCalls).GetMaximum P "plan_memory" = .ok (.num (.int 100))) ∧
    ∃ D U P cfg, (installed.run layeredCalls).appRecords "dave.org" = .ok (D, U, P) ∧
      (installed.run layeredCalls).appConfig false "/srv" D P = .ok cfg ∧
        cfg.get? "maxMemory" = some (.num (.int 100)) := by
  have hs := consistent_of_adds reached_layeredCalls
  have hvals : (installed.run layeredCalls).chainMaximums "plan_memory" "bronze" =
      [.num (.int 300), .num (.int (-1)), .num (.int 100)] := rfl
  have hwhole : ∀ v ∈ [JsVal.num (.int 300), .num (.int (-1)), .num (.int 100)], IntOrMissing v ∧ isMissing v = false := by
    intro v hv
    rcases List.mem_cons.1 hv with rfl | hv
    · exact ⟨.inr ⟨300, rfl⟩, rfl⟩
    · rcases List.mem_pair.1 hv with rfl | rfl
      · exact ⟨.inr ⟨-1, rfl⟩, rfl⟩
      · exact ⟨.inr ⟨100, rfl⟩, rfl⟩
  obtain ⟨hmax, hcfg⟩ := maximum_is_least_limit hs.integrity hs.sound.named hs.forest.climbs domainsPlain_layeredCalls
  constructor
  · obtain ⟨P, hP⟩ := Dict.mem_iff.1 (show "bronze" ∈ (installed.run layeredCalls).plans by decide)
    have hiff := hmax "bronze" P "plan_memory" hP
    rw [hvals] at hiff
    exact ⟨P, hP, (hiff fun v hv => (hwhole v hv).1).2 (.inl fun v hv => (hwhole v hv).2)⟩
  · obtain ⟨D, U, P, cfg, hrec, hrun, hlimits⟩ := hcfg false "/srv" "dave.org" (by decide)
    have hplan : U.plan = "bronze" := by
      have hrecord := congrArg (fun r => r.toOption.map fun r => r.2.1.plan) hrec
      exact (Option.some.inj hrecord).symm
    have hiff := hlimits ("plan_memory", "maxMemory") List.mem_cons_self
    rw [hplan, hvals] at hiff
    refine ⟨D, U, P, cfg, hrec, hrun, (hiff fun v hv => (hwhole v hv).1).2 fun n hn => ?_⟩
    exact absurd hn List.not_mem_nil

/-- The plan that lacks the field has no limit, though the one above it sets one. -/
theorem missing_maximum_hides_limit : ¬ ∀ s, Reached (fun _ c => Adds c) s →
    ∀ p P f, s.plans.get? p = some P →
      s.GetMaximum P f = .ok (limitVal (leastLimit (s.chainMaximums f p))) := by
  intro h
  obtain ⟨P, hP⟩ := Dict.mem_iff.1 (show "silver" ∈ (installed.run limitCalls).plans by decide)
  have hmax := h _ reached_limitCalls "silver" P "plan_memory" hP
  have hget := eq_of_map (f := fun P => (installed.run limitCalls).GetMaximum P "plan_memory")
    (b := .ok .undefined) (by rfl) hP
  rw [hget] at hmax
  have hleast : leastLimit ((installed.run limitCalls).chainMaximums "plan_memory" "silver") =
    some 100 := rfl
  rw [hleast] at hmax
  cases hmax

end Store

end JXPanel

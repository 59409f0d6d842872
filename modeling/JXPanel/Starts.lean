import JXPanel.AppConfig

namespace JXPanel
set_option autoImplicit true

structure Host where
  jxPath : Option String
  spawnerCopied : String → Bool
  /-- Why the data of an application are not found. -/
  app_error : String → Option String
  app_3rdparty_error : String → Option String
  /-- Why there is no directory of the application and none can be made. -/
  app_dir_error : String → Option String
  /-- Why the configuration of nginx is not saved. -/
  nginx_error : String → Option String
  isMonitorSecured : Bool
  dirMonitorCertificates : String

/-- What starts applications. The monitor answers with the domains whose spawners it runs. -/
inductive StartEvent
  | appStartEnabledApplications
  | appStartStop (startOrStop : Bool) (domain_name : String) (monitor : Option (List String))
  | appRestartMultiple (domain_names : List String) (monitor : Option (List String))

def isSuspended (suspended : JsVal) : Bool :=
  suspended.truthy && match suspended with
    | .arr [] => false
    | _ => true

namespace Store
variable (h : Host) (s : Store)

/-- Why there is no command that starts an application, none if there is one. -/
def appGetStartCommand (domain_name : String) : Js (Option String) :=
  if h.jxPath.isNone then .ok (some "JXcoreNotInstalled")
  else if !h.spawnerCopied domain_name then .ok (some "CannotCopySpawner")
  else
    match s.appRecords domain_name with
    | .error err => .ok (some err)
    | .ok (domain, _, plan) => do
      let _ ← s.appConfig h.isMonitorSecured h.dirMonitorCertificates domain plan
      return (h.app_error domain_name).or <| (h.app_dir_error domain_name).or <|
        (h.app_3rdparty_error domain_name).or <|
          (if plan.suspended.truthy then some "PlanSuspended" else none).or (h.nginx_error domain_name)

def withCommand (domain_name : String) : Js (List String) := do
  match ← s.appGetStartCommand h domain_name with
  | some _ => return []
  | none => return [domain_name]

/-- One pass of the loop over the domains of the root plan. -/
def enabledApplication (domain_name : String) : Js (List String) :=
  match s.getDomain? domain_name with
  | none => .error .typeError
  | some domain =>
    match s.planOf domain.owner with
    | none => .error .typeError
    | some p =>
      match s.plans.get? p with
      | none => .error .typeError
      | some plan =>
        if (prop domain.fields "jx_enabled").truthy && !plan.suspended.truthy then
          s.withCommand h domain_name
        else .ok []

/-- The applications that an event starts, or kills so that the monitor starts them again. -/
def started : StartEvent → Js (List String)
  | .appStartEnabledApplications =>
    if unlimitedPlanName ∉ s.plans then .ok []
    else do
      let domains ← s.getDomainsByPlanName unlimitedPlanName 10000000
      Collect.concatM (s.enabledApplication h) domains
  | .appStartStop startOrStop domain_name monitor => do
    if !startOrStop then return []
    let start ← s.withCommand h domain_name
    match monitor with
    | none => return []
    | some running => return start.filter (· ∉ running)
  | .appRestartMultiple domain_names monitor =>
    match monitor with
    | none => .ok []
    | some running =>
      if running = [] then .ok []
      else do
        let spawners ← Collect.concatM (s.withCommand h) domain_names
        return spawners.filter (· ∈ running)

/-- Neither the owner of a domain nor his plan is suspended. -/
def OwnerActive (d : String) : Prop :=
  ∀ D U P, s.appRecords d = .ok (D, U, P) → isSuspended U.suspended = false ∧ isSuspended P.suspended = false

/-- Whatever an event starts belongs to users who are not suspended. -/
def StartsSafe (e : StartEvent) : Prop := ∀ l, s.started h e = .ok l → ∀ d ∈ l, s.OwnerActive d

/-- All that starting an application takes, apart from its plan. -/
structure Startable (d : String) (D : Domain) (P : Plan) : Prop where
  installed : h.jxPath.isSome
  spawner : h.spawnerCopied d = true
  config : ∃ cfg, s.appConfig h.isMonitorSecured h.dirMonitorCertificates D P = .ok cfg
  found : h.app_error d = none
  dir : h.app_dir_error d = none
  app : h.app_3rdparty_error d = none
  nginx : h.nginx_error d = none

/-- A suspended user whose application could be started is in a suspended plan. -/
def SuspendedTogether : Prop :=
  ∀ d D U P, s.appRecords d = .ok (D, U, P) → s.Startable h d D P → isSuspended U.suspended = true →
    P.suspended.truthy = true

variable {h : Host} {s : Store} {d : String}

theorem or_eq_none {a b : Option String} : a.or b = none ↔ a = none ∧ b = none := by
  cases a with
  | none => exact (and_iff_right rfl).symm
  | some x =>
    constructor
    · intro he
      cases he
    · rintro ⟨he, -⟩
      cases he

theorem appGetStartCommand_iff : s.appGetStartCommand h d = .ok none ↔
    ∃ D U P, s.appRecords d = .ok (D, U, P) ∧ s.Startable h d D P ∧ P.suspended.truthy = false := by
  rw [appGetStartCommand]
  cases hjx : h.jxPath with
  | none =>
    constructor
    · intro he
      cases he
    · rintro ⟨D, U, P, -, hs, -⟩
      have hin := hs.installed
      rw [hjx] at hin
      cases hin
  | some jxPath =>
    cases hspawner : h.spawnerCopied d with
    | false =>
      constructor
      · intro he
        cases he
      · rintro ⟨D, U, P, -, hs, -⟩
        rw [hs.spawner] at hspawner
        cases hspawner
    | true =>
      cases hr : s.appRecords d with
      | error err =>
        constructor
        · intro he
          cases he
        · rintro ⟨D, U, P, he, -⟩
          cases he
      | ok r =>
        obtain ⟨D, U, P⟩ := r
        have hplan : (if P.suspended.truthy = true then some "PlanSuspended" else none) = none ↔
            P.suspended.truthy = false := by
          cases P.suspended.truthy with
          | true =>
            constructor
            · intro he
              cases he
            · intro he
              cases he
          | false => exact iff_of_true rfl rfl
        constructor
        · intro he
          obtain ⟨cfg, hcfg, he⟩ := Collect.bind_ok.1 he
          have hnone := Except.ok.inj he
          rw [or_eq_none, or_eq_none, or_eq_none, or_eq_none, hplan] at hnone
          obtain ⟨hfound, hdir, happ, hsus, hnginx⟩ := hnone
          have hin : h.jxPath.isSome := by
            rw [hjx]
            rfl
          exact ⟨D, U, P, rfl, ⟨hin, hspawner, ⟨cfg, hcfg⟩, hfound, hdir, happ, hnginx⟩, hsus⟩
        · rintro ⟨D', U', P', he, hs, hsus⟩
          cases he
          obtain ⟨cfg, hcfg⟩ := hs.config
          apply Collect.bind_ok.2
          refine ⟨cfg, hcfg, congrArg Except.ok ?_⟩
          rw [or_eq_none, or_eq_none, or_eq_none, or_eq_none, hplan]
          exact ⟨hs.found, hs.dir, hs.app, hsus, hs.nginx⟩

theorem mem_withCommand {l : List String} {x : String} (hl : s.withCommand h x = .ok l) (hd : d ∈ l) :
    s.appGetStartCommand h d = .ok none := by
  obtain ⟨r, hr, hl⟩ := Collect.bind_ok.1 hl
  cases r with
  | some err =>
    rw [← Except.ok.inj hl] at hd
    cases hd
  | none =>
    rw [← Except.ok.inj hl] at hd
    rw [List.mem_singleton.1 hd]
    exact hr

theorem mem_enabledApplication {l : List String} {x : String} (hl : s.enabledApplication h x = .ok l)
    (hd : d ∈ l) : s.appGetStartCommand h d = .ok none := by
  unfold enabledApplication at hl
  cases hD : s.getDomain? x with
  | none =>
    rw [hD] at hl
    cases hl
  | some D =>
    rw [hD] at hl
    dsimp only at hl
    cases hp : s.planOf D.owner with
    | none =>
      rw [hp] at hl
      cases hl
    | some p =>
      rw [hp] at hl
      dsimp only at hl
      cases hP : s.plans.get? p with
      | none =>
        rw [hP] at hl
        cases hl
      | some P =>
        rw [hP] at hl
        dsimp only at hl
        split at hl
        · exact mem_withCommand hl hd
        · rw [← Except.ok.inj hl] at hd
          cases hd

theorem command_of_started {e : StartEvent} {l : List String} (hl : s.started h e = .ok l) (hd : d ∈ l) :
    s.appGetStartCommand h d = .ok none := by
  cases e with
  | appStartEnabledApplications =>
    rw [started] at hl
    split at hl
    · rw [← Except.ok.inj hl] at hd
      cases hd
    · obtain ⟨domains, -, hl⟩ := Collect.bind_ok.1 hl
      obtain ⟨x, -, l', hl', hd'⟩ := (Collect.mem_concatM hl).1 hd
      exact mem_enabledApplication hl' hd'
  | appStartStop startOrStop x monitor =>
    cases startOrStop with
    | false =>
      rw [← Except.ok.inj hl] at hd
      cases hd
    | true =>
      obtain ⟨start, hstart, hl⟩ := Collect.bind_ok.1 hl
      cases monitor with
      | none =>
        rw [← Except.ok.inj hl] at hd
        cases hd
      | some running =>
        rw [← Except.ok.inj hl] at hd
        exact mem_withCommand hstart (List.mem_of_mem_filter hd)
  | appRestartMultiple domain_names monitor =>
    cases monitor with
    | none =>
      rw [← Except.ok.inj hl] at hd
      cases hd
    | some running =>
      rw [started] at hl
      split at hl
      · rw [← Except.ok.inj hl] at hd
        cases hd
      · obtain ⟨spawners, hspawners, hl⟩ := Collect.bind_ok.1 hl
        rw [← Except.ok.inj hl] at hd
        obtain ⟨x, -, l', hl', hd'⟩ := (Collect.mem_concatM hspawners).1 (List.mem_of_mem_filter hd)
        exact mem_withCommand hl' hd'

theorem started_of_command (hd : s.appGetStartCommand h d = .ok none) :
    s.started h (.appStartStop true d (some [])) = .ok [d] := by
  have hcmd : s.withCommand h d = .ok [d] := Collect.bind_ok.2 ⟨none, hd, rfl⟩
  rw [started, hcmd]
  rfl

theorem isSuspended_of_not_truthy {v : JsVal} (hv : v.truthy = false) : isSuspended v = false := by
  unfold isSuspended
  rw [hv]
  rfl

theorem startsSafe_iff : (∀ e, s.StartsSafe h e) ↔ s.SuspendedTogether h := by
  constructor
  · intro hsafe d D U P hr hs hU
    by_contra hP
    have hsus : P.suspended.truthy = false := Bool.eq_false_iff.2 hP
    have hcommand : s.appGetStartCommand h d = .ok none := appGetStartCommand_iff.2 ⟨D, U, P, hr, hs, hsus⟩
    have hactive := hsafe _ [d] (started_of_command hcommand) d List.mem_cons_self D U P hr
    rw [hactive.1] at hU
    cases hU
  · intro htogether e l hl d hd D U P hr
    obtain ⟨D', U', P', hr', hs, hsus⟩ := appGetStartCommand_iff.1 (command_of_started hl hd)
    rw [hr] at hr'
    cases hr'
    refine ⟨?_, isSuspended_of_not_truthy hsus⟩
    by_contra hU
    rw [htogether d D U P hr hs (Bool.not_eq_false _ |>.mp hU)] at hsus
    cases hsus

/-- At no moment of a run an application of a suspended owner or plan is started just when at every
moment the suspended owners whose applications can be started are in suspended plans. -/
theorem starts_safe_iff (h : Host) (calls : List Call) :
    (∀ past, past <+: calls → ∀ e, (installed.run past).StartsSafe h e) ↔
      ∀ past, past <+: calls → (installed.run past).SuspendedTogether h := by
  constructor
  · intro hsafe past hpast
    exact startsSafe_iff.1 (hsafe past hpast)
  · intro htogether past hpast
    exact startsSafe_iff.2 (htogether past hpast)

def readyHost : Host :=
  { jxPath := some "/opt/jx"
    spawnerCopied := fun _ => true
    app_error := fun _ => none
    app_3rdparty_error := fun _ => none
    app_dir_error := fun _ => none
    nginx_error := fun _ => none
    isMonitorSecured := false
    dirMonitorCertificates := "/opt/cert/" }

def suspendedCalls : List Call := sampleCalls ++ [.suspendUser "bob" "plan_disk_space"]

/-- The application of a suspended user is started: his own plan is not suspended. -/
theorem suspended_owner_started :
    ¬∀ (calls : List Call) (h : Host) (e : StartEvent), (installed.run calls).StartsSafe h e := by
  intro h
  have hstart : (installed.run suspendedCalls).started readyHost (.appStartStop true "bob.org" (some [])) =
      .ok ["bob.org"] := by
    decide +kernel
  have hsus : ((installed.run suspendedCalls).appRecords "bob.org").toOption.map
      (fun r => isSuspended r.2.1.suspended) = some true := by
    decide +kernel
  have hactive := h suspendedCalls readyHost _ _ hstart "bob.org" List.mem_cons_self
  obtain ⟨⟨D, U, P⟩, hr, hU⟩ := Option.map_eq_some_iff.1 hsus
  cases hrecords : (installed.run suspendedCalls).appRecords "bob.org" with
  | error err =>
    rw [hrecords] at hr
    cases hr
  | ok r =>
    rw [hrecords] at hr
    cases hr
    have hfree := (hactive D U P hrecords).1
    rw [hU] at hfree
    cases hfree

end Store
end JXPanel

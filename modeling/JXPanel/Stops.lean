import JXPanel.Spawner

namespace JXPanel
set_option autoImplicit true

/-- What stopping applications meets: the panel's settings, what the monitor answers, and what it
answers when it is asked again after some commands have been run. -/
structure Monitoring where
  jxPath : Option String
  dirAppConfigs : String
  spawnerCopied : String → Bool
  before : Except String String
  after : Finset String → Except String String

/-- What `appStopMultiple` does. A callback is told whether there is an error, and which. -/
inductive StopEvent
  | exec (cmd : String)
  | removeNginxConfigs (domain_names : List String)
  | removeNginxConfig (domain_name : String)
  | called (err : Bool) (infos : List (String × String))
  | uncaught (ex : Fault)

structure StopCommand where
  cmd : String
  spawner : String

/-- `text.indexOf(part) !== -1` -/
def containsText (text part : String) : Bool := decide (part.toList <:+: text.toList)

/-- A callback of the monitor: it is given an error or a text, and may throw. -/
abbrev MonitorCallback := Option String → Option String → List StopEvent × Except Fault Unit

def Fault.text : Fault → String
  | .thrown msg => msg
  | .typeError => "TypeError"
  | .stackOverflow => "RangeError"
  | .hangs => ""

/-- What an exception that nobody catches leaves. -/
def settle : List StopEvent × Except Fault Unit → List StopEvent
  | (log, .ok ()) => log
  | (log, .error ex) => log ++ [.uncaught ex]

/-- The text of the monitor's answer is not parsed here. What the callback throws when it is given the text
is taken for an error in it, and the callback is called again. -/
def getMonitorJSON (answer : Except String String) (cb : MonitorCallback) : List StopEvent :=
  match answer with
  | .error e => settle (cb (some e) none)
  | .ok body =>
    match cb none (some body) with
    | (log, .ok ()) => log
    | (log, .error ex) => log ++ settle (cb (some ("Cannot parse json: " ++ ex.text)) none)

namespace Monitoring
variable (m : Monitoring)

def spawnerPath (domain_name : String) : String := appGetSpawnerPath m.dirAppConfigs domain_name

def appGetStopCommand (domain_name : String) : Except String StopCommand :=
  if !m.spawnerCopied domain_name then .error "CannotCopySpawner"
  else
    match m.jxPath with
    | none => .error "JXcoreNotInstalled"
    | some jxPath =>
      .ok { cmd := jxPath ++ " monitor kill " ++ m.spawnerPath domain_name ++ " 2>&1"
            spawner := m.spawnerPath domain_name }

/-- The commands that the loop gathers. Neither `spawner` nor `stepDone` is defined where it uses them. -/
def stopCommands (ret : String) : List String → Except Fault (List String)
  | [] => .ok []
  | domain_name :: domain_names =>
    match m.appGetStopCommand domain_name with
    | .error _ => .error (.thrown "spawner is not defined")
    | .ok cmd =>
      if !containsText ret cmd.spawner then .error (.thrown "stepDone is not defined")
      else do
        let commands ← stopCommands ret domain_names
        return cmd.cmd :: commands

/-- The callback is called when all commands have been run; it is given those that have. -/
def runMultipleComands (command_arr : List String) (cb : List String → List StopEvent) : List StopEvent :=
  if command_arr = [] then cb []
  else if m.jxPath.isNone then cb []
  else command_arr.map .exec ++ cb command_arr

end Monitoring

/-- The check afterwards. What it looks for in the answer is the text of an object. -/
def checkStopped (domain_names : List String) : MonitorCallback := fun _ ret2 =>
  match ret2 with
  | none => ([], .error .typeError)
  | some ret2 =>
    if containsText ret2 "[object Object]" then
      ([.called true (domain_names.map fun domain_name => (domain_name, "JXcoreAppCannotStop"))], .ok ())
    else (domain_names.map .removeNginxConfig ++ [.called false []], .ok ())

namespace Monitoring
variable (m : Monitoring)

def appStopMultiple (domain_names : List String) : List StopEvent :=
  if domain_names = [] then [.called false []]
  else getMonitorJSON m.before fun err ret =>
    let text := ret.getD ""
    if err.isSome || decide (text = "") then
      ([.removeNginxConfigs domain_names, .called false []], .ok ())
    else
      match m.stopCommands text domain_names with
      | .error ex => ([], .error ex)
      | .ok commands =>
        (m.runMultipleComands commands fun run =>
          getMonitorJSON (m.after run.toFinset) (checkStopped domain_names), .ok ())

end Monitoring

/-- The commands that have been run. -/
def executed (log : List StopEvent) : List String := log.filterMap fun e =>
  match e with
  | .exec cmd => some cmd
  | _ => none

/-- The errors that the callback has been told of. -/
def reports (log : List StopEvent) : List Bool := log.filterMap fun e =>
  match e with
  | .called err _ => some err
  | _ => none

def listedPath (info : Json.Value ν) : Option String :=
  match field info "path" with
  | some (.str path) => some path
  | _ => none

/-- The paths of the processes in an answer of the monitor, none if it cannot be parsed. -/
def listedPaths (N : Json.Numbers ν) (body : String) : List String :=
  match Json.read N body.toList with
  | some (.arr l) => l.filterMap listedPath
  | _ => []

namespace Monitoring
variable (m : Monitoring)

/-- The answer lists the spawner of a domain. -/
def Listed (N : Json.Numbers ν) (answer : Except String String) (domain_name : String) : Prop :=
  ∃ body, answer = .ok body ∧ m.spawnerPath domain_name ∈ listedPaths N body

def Running (N : Json.Numbers ν) (domain_name : String) : Prop := m.Listed N m.before domain_name

/-- What the code takes for it: the text of the answer has the path of the spawner in it. -/
def Found (domain_name : String) : Prop :=
  ∃ ret, m.before = .ok ret ∧ containsText ret (m.spawnerPath domain_name) = true

/-- The command that stops a domain is among some commands. -/
def Kills (commands : Finset String) (domain_name : String) : Prop :=
  ∃ cmd, m.appGetStopCommand domain_name = .ok cmd ∧ cmd.cmd ∈ commands

/-- The command that stops an application takes it out of the monitor, and none comes into it. -/
def KillsWork (N : Json.Numbers ν) (domain_names : List String) : Prop :=
  ∀ commands, ∀ d ∈ domain_names, m.Listed N (m.after commands) d → m.Running N d ∧ ¬m.Kills commands d

/-- The applications that were running, and no others, are killed; the callback is called once; it is told
of success only if none of them is running; and the order of the list makes no difference. -/
structure StopsAll (N : Json.Numbers ν) (domain_names : List String) : Prop where
  kills : ∀ d ∈ domain_names, m.Running N d → ∃ cmd, m.appGetStopCommand d = .ok cmd ∧
    cmd.cmd ∈ executed (m.appStopMultiple domain_names)
  only : ∀ c ∈ executed (m.appStopMultiple domain_names), ∃ d ∈ domain_names, m.Running N d ∧
    ∃ cmd, m.appGetStopCommand d = .ok cmd ∧ cmd.cmd = c
  once : (reports (m.appStopMultiple domain_names)).length = 1
  success : false ∈ reports (m.appStopMultiple domain_names) → ∀ d ∈ domain_names,
    ¬m.Listed N (m.after (executed (m.appStopMultiple domain_names)).toFinset) d
  order : ∀ domain_names', domain_names'.Perm domain_names →
    (executed (m.appStopMultiple domain_names')).Perm (executed (m.appStopMultiple domain_names)) ∧
      reports (m.appStopMultiple domain_names') = reports (m.appStopMultiple domain_names)

/-- Every listed domain is found in the answer, and there is a command that stops it. -/
def AllStoppable (domain_names : List String) : Prop :=
  ∀ d ∈ domain_names, m.Found d ∧ ∃ cmd, m.appGetStopCommand d = .ok cmd

/-- The commands of the listed domains. -/
def stopTexts (domain_names : List String) : List String :=
  domain_names.filterMap fun d => (m.appGetStopCommand d).toOption.map StopCommand.cmd

variable {m} {N : Json.Numbers ν} {d e : String} {l l' : List String} {ret : String}

theorem appGetStopCommand_ok {cmd : StopCommand} (h : m.appGetStopCommand d = .ok cmd) :
    cmd.spawner = m.spawnerPath d ∧ m.jxPath.isSome = true := by
  unfold appGetStopCommand at h
  split at h
  · cases h
  · split at h
    · cases h
    · rename_i jxPath hjx
      cases h
      exact ⟨rfl, by rw [hjx]; rfl⟩

/-- The loop gets through just when all listed domains are found and can be stopped. -/
theorem stopCommands_ok (hbefore : m.before = .ok ret) (h : m.AllStoppable l) :
    m.stopCommands ret l = .ok (m.stopTexts l) := by
  induction l with
  | nil => rfl
  | cons d l ih =>
    obtain ⟨⟨ret', hret', hin⟩, cmd, hcmd⟩ := h d List.mem_cons_self
    cases Except.ok.inj (hbefore.symm.trans hret')
    have hrest := ih fun e he => h e (List.mem_cons_of_mem d he)
    have htexts : m.stopTexts (d :: l) = cmd.cmd :: m.stopTexts l := by
      rw [stopTexts, List.filterMap_cons, hcmd]
      rfl
    rw [stopCommands, hcmd]
    dsimp only
    rw [(appGetStopCommand_ok hcmd).1, hin, hrest, htexts]
    rfl

theorem stopCommands_error (hbefore : m.before = .ok ret) (h : ¬m.AllStoppable l) :
    ∃ ex, m.stopCommands ret l = .error ex := by
  induction l with
  | nil => exact absurd (fun d hd => absurd hd List.not_mem_nil) h
  | cons d l ih =>
    rw [stopCommands]
    cases hcmd : m.appGetStopCommand d with
    | error err => exact ⟨_, rfl⟩
    | ok cmd =>
      dsimp only
      rw [(appGetStopCommand_ok hcmd).1]
      cases hin : containsText ret (m.spawnerPath d) with
      | false => exact ⟨_, rfl⟩
      | true =>
        obtain ⟨ex, hex⟩ := ih fun hl => h (List.forall_mem_cons.2 ⟨⟨⟨ret, hbefore, hin⟩, cmd, hcmd⟩, hl⟩)
        rw [hex]
        exact ⟨ex, rfl⟩

theorem spawnerPath_ne (d : String) : (m.spawnerPath d).toList ≠ [] := by
  rw [spawnerPath, appGetSpawnerPath]
  simp

/-- Where the loop does not get through nothing is stopped, and the callback is told of no error. -/
theorem appStopMultiple_quiet (hl : l ≠ []) (h : ¬m.AllStoppable l) :
    m.appStopMultiple l = [.removeNginxConfigs l, .called false []] := by
  rw [appStopMultiple, if_neg hl, getMonitorJSON.eq_def]
  cases hbefore : m.before with
  | error e => rfl
  | ok ret =>
    dsimp only
    by_cases hempty : ret = ""
    · subst hempty
      rfl
    · obtain ⟨ex, hex⟩ := stopCommands_error hbefore h
      have hread : ((none : Option String).isSome || decide ((some ret).getD "" = "")) = false := by
        simpa using hempty
      rw [hread, if_neg Bool.false_ne_true, Option.getD_some, hex]
      rfl

theorem appStopMultiple_runs (hl : l ≠ []) (h : m.AllStoppable l) :
    m.appStopMultiple l = (m.stopTexts l).map .exec ++
      getMonitorJSON (m.after (m.stopTexts l).toFinset) (checkStopped l) := by
  obtain ⟨d, l', rfl⟩ := List.exists_cons_of_ne_nil hl
  obtain ⟨⟨ret, hbefore, hin⟩, cmd, hcmd⟩ := h d List.mem_cons_self
  have hempty : ret ≠ "" := by
    rintro rfl
    exact spawnerPath_ne d (List.eq_nil_of_infix_nil (of_decide_eq_true hin))
  have hread : ((none : Option String).isSome || decide ((some ret).getD "" = "")) = false := by
    simpa using hempty
  have hjx : m.jxPath.isNone = false := by
    rw [Option.isNone_eq_false_iff]
    exact (appGetStopCommand_ok hcmd).2
  have htexts : m.stopTexts (d :: l') ≠ [] := by
    rw [stopTexts, List.filterMap_cons, hcmd]
    exact List.cons_ne_nil _ _
  rw [appStopMultiple, if_neg hl, getMonitorJSON.eq_def, hbefore]
  dsimp only
  rw [hread, if_neg Bool.false_ne_true, Option.getD_some, stopCommands_ok hbefore h]
  dsimp only
  rw [runMultipleComands, if_neg htexts, hjx, if_neg Bool.false_ne_true]

section Reading
variable {cmds : List String}

theorem check_ok (l : List String) (ret : String) : getMonitorJSON (.ok ret) (checkStopped l) =
    if containsText ret "[object Object]" then
      [.called true (l.map fun domain_name => (domain_name, "JXcoreAppCannotStop"))]
    else l.map .removeNginxConfig ++ [.called false []] := by
  have hcheck : checkStopped l none (some ret) = if containsText ret "[object Object]" then
      ([.called true (l.map fun domain_name => (domain_name, "JXcoreAppCannotStop"))], .ok ())
    else (l.map .removeNginxConfig ++ [.called false []], .ok ()) := rfl
  rw [getMonitorJSON.eq_def]
  dsimp only
  rw [hcheck]
  cases containsText ret "[object Object]" with
  | true => rfl
  | false => rfl

theorem executed_append (log log' : List StopEvent) : executed (log ++ log') = executed log ++ executed log' :=
  List.filterMap_append

theorem reports_append (log log' : List StopEvent) : reports (log ++ log') = reports log ++ reports log' :=
  List.filterMap_append

theorem events_exec (cmds : List String) : executed (cmds.map .exec) = cmds ∧ reports (cmds.map .exec) = [] := by
  induction cmds with
  | nil => exact ⟨rfl, rfl⟩
  | cons c cmds ih => exact ⟨congrArg (c :: ·) ih.1, ih.2⟩

theorem events_removeNginxConfig (l : List String) :
    executed (l.map .removeNginxConfig) = [] ∧ reports (l.map .removeNginxConfig) = [] := by
  induction l with
  | nil => exact ⟨rfl, rfl⟩
  | cons d l ih => exact ih

theorem executed_check (answer : Except String String) : executed (getMonitorJSON answer (checkStopped l)) = [] := by
  cases answer with
  | error e => rfl
  | ok ret =>
    rw [check_ok]
    cases containsText ret "[object Object]" with
    | true => rfl
    | false =>
      rw [if_neg Bool.false_ne_true, executed_append, (events_removeNginxConfig l).1]
      rfl

/-- The check afterwards reports once if the monitor answers. -/
theorem reports_check (ret : String) : reports (getMonitorJSON (.ok ret) (checkStopped l)) =
    [containsText ret "[object Object]"] := by
  rw [check_ok]
  cases containsText ret "[object Object]" with
  | true => rfl
  | false =>
    rw [if_neg Bool.false_ne_true, reports_append, (events_removeNginxConfig l).2]
    rfl

end Reading

/-- What is run and reported where all listed domains can be stopped, and where they cannot. -/
theorem executed_eq (hl : l ≠ []) (h : m.AllStoppable l) : executed (m.appStopMultiple l) = m.stopTexts l := by
  rw [appStopMultiple_runs hl h, executed_append, (events_exec _).1, executed_check, List.append_nil]

theorem reports_eq (hl : l ≠ []) (h : m.AllStoppable l) : reports (m.appStopMultiple l) =
    reports (getMonitorJSON (m.after (m.stopTexts l).toFinset) (checkStopped l)) := by
  rw [appStopMultiple_runs hl h, reports_append, (events_exec _).2, List.nil_append]

theorem quiet_eq (h : l = [] ∨ ¬m.AllStoppable l) :
    executed (m.appStopMultiple l) = [] ∧ reports (m.appStopMultiple l) = [false] := by
  by_cases hl : l = []
  · subst hl
    exact ⟨rfl, rfl⟩
  · rw [appStopMultiple_quiet hl (h.resolve_left hl)]
    exact ⟨rfl, rfl⟩

theorem mem_stopTexts {c : String} : c ∈ m.stopTexts l ↔ ∃ d ∈ l, ∃ cmd, m.appGetStopCommand d = .ok cmd ∧ cmd.cmd = c := by
  rw [stopTexts, List.mem_filterMap]
  refine exists_congr fun d => and_congr_right fun _ => ?_
  cases m.appGetStopCommand d with
  | error e => exact iff_of_false (by rintro ⟨⟩) (by rintro ⟨cmd, he, -⟩; cases he)
  | ok cmd =>
    constructor
    · intro h
      exact ⟨cmd, rfl, Option.some.inj h⟩
    · rintro ⟨cmd', he, rfl⟩
      cases he
      rfl

theorem allStoppable_perm (h : l'.Perm l) : m.AllStoppable l' ↔ m.AllStoppable l :=
  ⟨fun hl d hd => hl d (h.mem_iff.2 hd), fun hl d hd => hl d (h.mem_iff.1 hd)⟩

/-- The order of the list makes no difference. -/
theorem order_irrelevant (h : l'.Perm l) : (executed (m.appStopMultiple l')).Perm (executed (m.appStopMultiple l)) ∧
    reports (m.appStopMultiple l') = reports (m.appStopMultiple l) := by
  by_cases hq : l = [] ∨ ¬m.AllStoppable l
  · have hq' : l' = [] ∨ ¬m.AllStoppable l' := by
      rw [allStoppable_perm h]
      refine hq.imp_left fun he => ?_
      rw [he] at h
      exact h.eq_nil
    rw [(quiet_eq hq).1, (quiet_eq hq').1, (quiet_eq hq).2, (quiet_eq hq').2]
    exact ⟨.refl _, rfl⟩
  · rw [not_or, not_not] at hq
    obtain ⟨hl, hs⟩ := hq
    have hl' : l' ≠ [] := by
      rintro rfl
      exact hl h.nil_eq.symm
    have hs' := (allStoppable_perm h).2 hs
    have hperm : (m.stopTexts l').Perm (m.stopTexts l) := h.filterMap _
    have hset : (m.stopTexts l').toFinset = (m.stopTexts l).toFinset := List.toFinset_eq_of_perm _ _ hperm
    rw [executed_eq hl hs, executed_eq hl' hs', reports_eq hl hs, reports_eq hl' hs', hset]
    refine ⟨hperm, ?_⟩
    cases m.after (m.stopTexts l).toFinset with
    | error e => rfl
    | ok ret => rw [reports_check, reports_check]

/-- The command names the spawner. -/
theorem stopCommand_path {cmd cmd' : StopCommand} (h : m.appGetStopCommand d = .ok cmd)
    (h' : m.appGetStopCommand e = .ok cmd') (heq : cmd.cmd = cmd'.cmd) : m.spawnerPath d = m.spawnerPath e := by
  unfold appGetStopCommand at h h'
  split at h
  · cases h
  split at h'
  · cases h'
  cases hjx : m.jxPath with
  | none =>
    rw [hjx] at h
    cases h
  | some jxPath =>
    rw [hjx] at h h'
    cases h
    cases h'
    exact (String.append_right_inj _).1 ((String.append_left_inj _).1 heq)

/-- Where the loop does not get through, nothing is stopped. -/
theorem stopsAll_of_quiet (hwork : m.KillsWork N l) (h : l = [] ∨ ¬m.AllStoppable l) :
    m.StopsAll N l ↔ ∀ d ∈ l, ¬m.Running N d := by
  obtain ⟨hexec, hreports⟩ := quiet_eq h
  constructor
  · intro hall d hd hrunning
    obtain ⟨cmd, -, hin⟩ := hall.kills d hd hrunning
    rw [hexec] at hin
    cases hin
  · intro hnone
    refine ⟨fun d hd hr => absurd hr (hnone d hd), fun c hc => ?_, ?_, fun _ d hd hlisted => ?_,
      fun l' hl' => order_irrelevant hl'⟩
    · rw [hexec] at hc
      cases hc
    · rw [hreports]
      rfl
    · exact hnone d hd (hwork _ d hd hlisted).1

/-- Where it does, the commands of all listed domains are run. -/
theorem stopsAll_of_runs (hwork : m.KillsWork N l) (hl : l ≠ []) (hs : m.AllStoppable l) :
    m.StopsAll N l ↔ (∀ d ∈ l, m.Running N d) ∧ ∃ ret, m.after (m.stopTexts l).toFinset = .ok ret := by
  have hexec := executed_eq hl hs
  have hreports := reports_eq hl hs
  constructor
  · intro h
    constructor
    · intro d hd
      obtain ⟨-, cmd, hcmd⟩ := hs d hd
      have hrun : cmd.cmd ∈ executed (m.appStopMultiple l) := by
        rw [hexec]
        exact mem_stopTexts.2 ⟨d, hd, cmd, hcmd, rfl⟩
      obtain ⟨e, -, ⟨body, hbefore, hlisted⟩, cmd', hcmd', heq⟩ := h.only _ hrun
      -- the other domain may have another name, but its spawner is the same
      rw [stopCommand_path hcmd' hcmd heq] at hlisted
      exact ⟨body, hbefore, hlisted⟩
    · have honce := h.once
      rw [hreports] at honce
      cases hafter : m.after (m.stopTexts l).toFinset with
      | ok ret => exact ⟨ret, rfl⟩
      | error err =>
        rw [hafter] at honce
        cases honce
  · rintro ⟨hrunning, ret, hret⟩
    refine ⟨fun d hd _ => ?_, fun c hc => ?_, ?_, fun _ d hd hlisted => ?_, fun l' h => order_irrelevant h⟩
    · obtain ⟨-, cmd, hcmd⟩ := hs d hd
      rw [hexec]
      exact ⟨cmd, hcmd, mem_stopTexts.2 ⟨d, hd, cmd, hcmd, rfl⟩⟩
    · rw [hexec] at hc
      obtain ⟨d, hd, cmd, hcmd, he⟩ := mem_stopTexts.1 hc
      exact ⟨d, hd, hrunning d hd, cmd, hcmd, he⟩
    · rw [hreports, hret, reports_check]
      rfl
    · rw [hexec] at hlisted
      obtain ⟨-, cmd, hcmd⟩ := hs d hd
      exact (hwork _ d hd hlisted).2 ⟨cmd, hcmd, List.mem_toFinset.2 (mem_stopTexts.2 ⟨d, hd, cmd, hcmd, rfl⟩)⟩

/-- Stopping several applications stops them all just when none of them is running and the loop does not
get through, or all of them are, the loop gets through and the monitor answers afterwards. -/
theorem stopsAll_iff (hwork : m.KillsWork N l) : m.StopsAll N l ↔
    ((l = [] ∨ ¬m.AllStoppable l) ∧ ∀ d ∈ l, ¬m.Running N d) ∨
      (m.AllStoppable l ∧ (∀ d ∈ l, m.Running N d) ∧ ∃ ret, m.after (m.stopTexts l).toFinset = .ok ret) := by
  by_cases hq : l = [] ∨ ¬m.AllStoppable l
  · rw [stopsAll_of_quiet hwork hq]
    constructor
    · intro hnone
      exact .inl ⟨hq, hnone⟩
    · rintro (⟨-, hnone⟩ | ⟨hs, -⟩)
      · exact hnone
      · rw [hq.resolve_right fun h => h hs]
        exact fun d hd => absurd hd List.not_mem_nil
  · rw [or_iff_right fun h => hq h.1]
    rw [not_or, not_not] at hq
    rw [stopsAll_of_runs hwork hq.1 hq.2]
    exact (and_iff_right hq.2).symm

open Json in
/-- What a monitor answers that runs the applications of some domains. -/
def listing (domain_names : List String) : String :=
  String.ofList <| write integers <| .arr <| domain_names.map fun d =>
    .obj [("pid", .num 1), ("path", .str (appGetSpawnerPath "/c/" d))]

theorem listedPaths_listing (domain_names : List String) :
    listedPaths Json.integers (listing domain_names) = domain_names.map (appGetSpawnerPath "/c/") := by
  have hproper : (Json.Value.arr (domain_names.map fun d =>
      Json.Value.obj [("pid", .num (1 : Int)), ("path", .str (appGetSpawnerPath "/c/" d))])).Proper := by
    apply Json.Value.Proper.arr
    intro v hv
    obtain ⟨d, -, rfl⟩ := List.mem_map.1 hv
    refine .obj _ (show ["pid", "path"].Nodup by decide) fun f hf => ?_
    rcases List.mem_cons.1 hf with rfl | hf
    · exact .num 1
    · rw [List.mem_singleton.1 hf]
      exact .str _
  rw [listedPaths, listing, String.toList_ofList, Json.read_write Json.integers hproper]
  dsimp only
  rw [List.filterMap_map]
  exact congrFun (List.filterMap_eq_map (f := appGetSpawnerPath "/c/")) domain_names

/-- A monitor that runs the applications of some domains until their stop commands come. -/
def runningApps (domain_names : List String) : Monitoring where
  jxPath := some "/jx"
  dirAppConfigs := "/c/"
  spawnerCopied := fun _ => true
  before := .ok (listing domain_names)
  after := fun commands => .ok <| listing <| domain_names.filter fun d =>
    "/jx monitor kill " ++ appGetSpawnerPath "/c/" d ++ " 2>&1" ∉ commands

theorem killsWork_runningApps (domain_names l : List String) : (runningApps domain_names).KillsWork Json.integers l := by
  rintro commands d - ⟨body, hbody, hlisted⟩
  cases hbody
  rw [listedPaths_listing] at hlisted
  obtain ⟨e, he, hpath⟩ := List.mem_map.1 hlisted
  obtain ⟨hin, hleft⟩ := List.mem_filter.1 he
  constructor
  · refine ⟨_, rfl, ?_⟩
    rw [listedPaths_listing]
    exact List.mem_map.2 ⟨e, hin, hpath⟩
  · rintro ⟨cmd, hcmd, hkilled⟩
    cases hcmd
    change appGetSpawnerPath "/c/" e = appGetSpawnerPath "/c/" d at hpath
    rw [hpath] at hleft
    exact of_decide_eq_true hleft hkilled

/-- Two applications are running, and both are stopped. -/
theorem stopsAll_iff_sample : (runningApps ["a.com", "b.com"]).StopsAll Json.integers ["a.com", "b.com"] := by
  refine (stopsAll_iff (killsWork_runningApps _ _)).2 (.inr ⟨?_, ?_, ⟨_, rfl⟩⟩)
  · have hfound : ∀ d ∈ ["a.com", "b.com"],
        containsText (listing ["a.com", "b.com"]) (appGetSpawnerPath "/c/" d) = true := by
      decide +kernel
    exact fun d hd => ⟨⟨_, rfl, hfound d hd⟩, _, rfl⟩
  · intro d hd
    refine ⟨_, rfl, ?_⟩
    rw [listedPaths_listing]
    exact List.mem_map_of_mem hd

/-- With an application that is not running in the list, the one that is running is not stopped, and
there is no error. -/
theorem running_app_not_stopped : ¬∀ (m : Monitoring) (l : List String), m.KillsWork Json.integers l →
    m.StopsAll Json.integers l := by
  intro h
  have hall := h (runningApps ["a.com"]) ["a.com", "b.com"] (killsWork_runningApps _ _)
  obtain ⟨cmd, -, hin⟩ := hall.kills "a.com" List.mem_cons_self (by
    refine ⟨_, rfl, ?_⟩
    rw [listedPaths_listing]
    exact List.mem_map_of_mem List.mem_cons_self)
  have hnone : executed ((runningApps ["a.com"]).appStopMultiple ["a.com", "b.com"]) = [] := by decide +kernel
  rw [hnone] at hin
  cases hin

end Monitoring
end JXPanel

import JXPanel.NginxConf
import JXPanel.Runs

namespace JXPanel
set_option autoImplicit true

/-- `nginx.conf`, if there is one, and the files that it is to include, by their names. -/
structure NginxFiles where
  conf : Option (List Char)
  jxcore : Dict String String

/-- What the panel's process knows of nginx, the files, and those that nginx serves while it runs. -/
structure Nginx where
  files : NginxFiles
  served : Option NginxFiles
  needsReload : Bool
  startError : Option String

/-- What a reload meets: the default configuration for the addresses of the machine, and what the command
writes if it fails. -/
structure NginxCall where
  cfg : String
  out : Option String

def includeText : List Char := "include jxcore/*.conf;".toList

/-- Behind the last closing brace nothing is looked at. -/
def lastBrace (str : List Char) : Option Nat :=
  (str.reverse.findIdx? (· = '\x7d')).map fun n => str.length - 1 - n

/-- `str.slice(0, end)`, where a negative end is counted from the other side. -/
def sliceTo (str : List Char) (stop : Int) : List Char := str.take (if stop < 0 then str.length + stop else stop).toNat

/-- The text of `nginx.conf` that includes the panel's files. -/
def includeLine (str : List Char) : List Char :=
  if includeText <:+: str then str
  else
    match lastBrace str with
    | none => str
    | some pos => sliceTo str (pos - 1) ++ "\n\t".toList ++ includeText ++ "\n".toList ++ str.drop pos

def defaultFile : String := "_default.conf"

def configFile (domain_name : String) : String := domain_name ++ ".conf"

namespace Nginx
variable (n : Nginx)

def isRunning : Bool := n.served.isSome

def writeFile (name cfg : String) : Nginx := { n with files := { n.files with jxcore := n.files.jxcore.set name cfg } }

def updateConfFile (cfg : String) : Nginx :=
  let n := { n with files := { n.files with conf := n.files.conf.map includeLine } }
  let contents := (n.files.jxcore.get? defaultFile).getD ""
  if contents = cfg then n else n.writeFile defaultFile cfg

/-- `reload`: what the command writes if it fails. -/
def reload (onlyIfNeeded : Bool) (call : NginxCall) : Nginx × Option String :=
  if onlyIfNeeded && !n.needsReload then (n, none)
  else if !n.isRunning then (n, none)
  else
    let n := n.updateConfFile call.cfg
    match call.out with
    | some out => (n, some out)
    | none => ({ n with served := some n.files, needsReload := false }, none)

/-- `start`, and whether it fails with an error. -/
def start (out : Option String) : Nginx × Bool :=
  match out with
  | some out => ({ n with startError := some ("Could not start nginx:" ++ out) }, true)
  | none => ({ n with served := some n.files, startError := none }, false)

def startIfStopped (out : Option String) : Nginx × Bool := if n.isRunning then (n, false) else n.start out

def stop (out : Option String) : Nginx × Bool :=
  match out with
  | some _ => (n, true)
  | none => ({ n with served := none }, false)

def stopIfStarted (out : Option String) : Nginx × Bool := if n.isRunning then n.stop out else (n, false)

/-- It is not started when it cannot be stopped. -/
def restart (stopOut startOut : Option String) : Nginx × Bool :=
  if n.isRunning then
    match n.stop stopOut with
    | (n, true) => (n, true)
    | (n, false) => n.start startOut
  else n.start startOut

/-- Files that cannot be deleted stay. -/
def removeFile (locked : String → Bool) (n : Nginx) (name : String) : Nginx :=
  if name = defaultFile ∨ locked name then n
  else { n with files := { n.files with jxcore := n.files.jxcore.erase name }, needsReload := true }

def removeAllConfigs (n : Nginx) (locked : String → Bool) : Nginx := n.files.jxcore.keys.foldl (removeFile locked) n

/-- An error that `reload` returns is none if its text is empty. -/
def reloadIfNeeded (reloadIfNeeded : Bool) (call : NginxCall) : Nginx × Js Bool :=
  if reloadIfNeeded then
    let r := n.reload true call
    (r.1, .ok (decide (r.2.getD "" ≠ "")))
  else (n, .ok false)

/-- `appSaveNginxConfigPath`, and whether it returns an error. -/
def appSaveNginxConfigPath (m : Machine) (s : Store) (domain_name : String) (reloadIfNeeded : Bool)
    (call : NginxCall) : Nginx × Js Bool :=
  match s.site m domain_name with
  | .error f => (n, .error f)
  | .ok none => (n, .ok true)
  | .ok (some site) =>
    let cfg := site.conf.text
    let current := (n.files.jxcore.get? (configFile domain_name)).getD ""
    let n := if current = cfg then n
      else { n.writeFile (configFile domain_name) cfg with needsReload := true }
    n.reloadIfNeeded reloadIfNeeded call

def appRemoveNginxConfigPath (domain_name : String) (reloadIfNeeded : Bool) (call : NginxCall) : Nginx × Js Bool :=
  if configFile domain_name ∈ n.files.jxcore then
    let files := { n.files with jxcore := n.files.jxcore.erase (configFile domain_name) }
    { n with files, needsReload := true }.reloadIfNeeded reloadIfNeeded call
  else (n, .ok false)

def appRemoveMultipleNginxConfigPath (domain_names : List String) (reloadIfNeeded : Bool) (call : NginxCall) :
    Nginx × Js Bool :=
  if domain_names = [] then (n, .ok false)
  else
    (domain_names.foldl (fun n domain_name => (n.appRemoveNginxConfigPath domain_name false call).1) n).reloadIfNeeded
      reloadIfNeeded call

end Nginx

/-- `nginx start`, `stop`, `restart`, `reload` and `fix config` on a command line. The last one takes the files of
domains away, and where it meets no error it brings the default configuration up to date. -/
inductive NginxTool
  | start (out : Option String)
  | stop (out : Option String)
  | restart (stopOut startOut : Option String)
  | reload (call : NginxCall)
  | fixConfig (removed : List String) (updated : Option String)

/-- What happens to nginx: calls of the panel's process, of a command line beside it, and an end of its own. -/
inductive NginxEvent
  | save (m : Machine) (s : Store) (domain_name : String) (reloadIfNeeded : Bool) (call : NginxCall)
  | remove (domain_name : String) (reloadIfNeeded : Bool) (call : NginxCall)
  | removeMultiple (domain_names : List String) (reloadIfNeeded : Bool) (call : NginxCall)
  | removeAll (locked : String → Bool)
  | reload (call : NginxCall)
  | start (out : Option String)
  | startIfStopped (out : Option String)
  | stop (out : Option String)
  | stopIfStarted (out : Option String)
  | restart (stopOut startOut : Option String)
  | commandLine (tool : NginxTool)
  | ends

namespace Nginx

/-- What a tool does in its own process. -/
def runTool (n : Nginx) : NginxTool → Nginx
  | .start out => (n.startIfStopped out).1
  | .stop out => (n.stopIfStarted out).1
  | .restart stopOut startOut => (n.restart stopOut startOut).1
  | .reload call => (n.reload false call).1
  | .fixConfig removed updated =>
    let n := removed.foldl (fun n domain_name => (n.appRemoveNginxConfigPath domain_name false ⟨"", none⟩).1) n
    updated.elim n n.updateConfFile

/-- A process that starts knows of no change to the files. -/
def fresh (n : Nginx) : Nginx := { n with needsReload := false, startError := none }

/-- A tool changes the files and nginx, and nothing that the panel's process knows. -/
def commandLine (n : Nginx) (tool : NginxTool) : Nginx :=
  { n.fresh.runTool tool with needsReload := n.needsReload, startError := n.startError }

def step (n : Nginx) : NginxEvent → Nginx
  | .save m s domain_name reloadIfNeeded call => (n.appSaveNginxConfigPath m s domain_name reloadIfNeeded call).1
  | .remove domain_name reloadIfNeeded call => (n.appRemoveNginxConfigPath domain_name reloadIfNeeded call).1
  | .removeMultiple domain_names reloadIfNeeded call =>
    (n.appRemoveMultipleNginxConfigPath domain_names reloadIfNeeded call).1
  | .removeAll locked => n.removeAllConfigs locked
  | .reload call => (n.reload true call).1
  | .start out => (n.start out).1
  | .startIfStopped out => (n.startIfStopped out).1
  | .stop out => (n.stop out).1
  | .stopIfStarted out => (n.stopIfStarted out).1
  | .restart stopOut startOut => (n.restart stopOut startOut).1
  | .commandLine tool => n.commandLine tool
  | .ends => { n with served := none }

/-- The loop of `appStartEnabledApplications`, which ends at a configuration that throws. -/
def saveAll (m : Machine) (s : Store) (call : NginxCall) : List String → Nginx → Nginx × Js Unit
  | [], n => (n, .ok ())
  | domain_name :: domains, n =>
    match n.appSaveNginxConfigPath m s domain_name false call with
    | (n, .error f) => (n, .error f)
    | (n, .ok _) => saveAll m s call domains n

/-- What `appStartEnabledApplications` does to nginx, for the domains that it makes commands for. -/
def startAll (n : Nginx) (m : Machine) (s : Store) (domains : List String) (locked : String → Bool)
    (call : NginxCall) : Nginx :=
  match saveAll m s call domains (n.removeAllConfigs locked) with
  | (n, .error _) => n
  | (n, .ok ()) => (n.reload true call).1

/-- While nginx runs and no reload is asked for, it serves the files as they are. -/
def Coherent (n : Nginx) : Prop := ∀ files, n.served = some files → n.needsReload = false → files = n.files

/-- A reload of the command line that fails has nothing to write, and files that are taken away on a command line
are not there. -/
def Settled (n : Nginx) : NginxEvent → Prop
  | .commandLine (.reload call) =>
    call.out.isSome → n.isRunning = true → n.needsReload = false → (n.updateConfFile call.cfg).files = n.files
  | .commandLine (.fixConfig removed updated) =>
    n.isRunning = true → n.needsReload = false → (n.runTool (.fixConfig removed updated)).files = n.files
  | _ => True

section Coherence
variable {n n₀ : Nginx} {call : NginxCall}

theorem coherent_of_needed (h : n.needsReload = true) : n.Coherent := by
  intro files _ hno
  rw [h] at hno
  cases hno

theorem coherent_of_stopped (h : n.served = none) : n.Coherent := by
  intro files hserved
  rw [h] at hserved
  cases hserved

theorem updateConfFile_needsReload (n : Nginx) (cfg : String) : (n.updateConfFile cfg).needsReload = n.needsReload := by
  unfold updateConfFile
  dsimp only
  split
  · rfl
  · rfl

theorem updateConfFile_served (n : Nginx) (cfg : String) : (n.updateConfFile cfg).served = n.served := by
  unfold updateConfFile
  dsimp only
  split
  · rfl
  · rfl

theorem Coherent.reload (h : n.Coherent) (call : NginxCall) : (n.reload true call).1.Coherent := by
  unfold Nginx.reload
  split
  · exact h
  · rename_i hneeded
    have hneeds : n.needsReload = true := by simpa using hneeded
    split
    · exact h
    · cases call.out with
      | some out =>
        apply coherent_of_needed
        exact (updateConfFile_needsReload n call.cfg).trans hneeds
      | none =>
        rintro files ⟨⟩ -
        rfl

theorem Coherent.reloadIfNeeded (h : n.Coherent) (b : Bool) (call : NginxCall) :
    (n.reloadIfNeeded b call).1.Coherent := by
  unfold Nginx.reloadIfNeeded
  split
  · exact h.reload call
  · exact h

theorem Coherent.start (h : n.Coherent) (out : Option String) : (n.start out).1.Coherent := by
  cases out with
  | some out => exact h
  | none =>
    rintro files ⟨⟩ -
    rfl

theorem Coherent.stop (h : n.Coherent) (out : Option String) : (n.stop out).1.Coherent := by
  cases out with
  | some out => exact h
  | none => exact coherent_of_stopped rfl

theorem Coherent.startIfStopped (h : n.Coherent) (out : Option String) : (n.startIfStopped out).1.Coherent := by
  unfold Nginx.startIfStopped
  split
  · exact h
  · exact h.start out

theorem Coherent.stopIfStarted (h : n.Coherent) (out : Option String) : (n.stopIfStarted out).1.Coherent := by
  unfold Nginx.stopIfStarted
  split
  · exact h.stop out
  · exact h

theorem Coherent.restart (h : n.Coherent) (stopOut startOut : Option String) :
    (n.restart stopOut startOut).1.Coherent := by
  unfold Nginx.restart
  split
  · cases stopOut with
    | some out => exact h
    | none => exact (coherent_of_stopped (n := (n.stop none).1) rfl).start startOut
  · exact h.start startOut

theorem Coherent.save (h : n.Coherent) (m : Machine) (s : Store) (domain_name : String) (b : Bool) (call : NginxCall) :
    (n.appSaveNginxConfigPath m s domain_name b call).1.Coherent := by
  unfold appSaveNginxConfigPath
  split
  · exact h
  · exact h
  · apply Coherent.reloadIfNeeded
    split
    · exact h
    · exact coherent_of_needed rfl

theorem Coherent.remove (h : n.Coherent) (domain_name : String) (b : Bool) (call : NginxCall) :
    (n.appRemoveNginxConfigPath domain_name b call).1.Coherent := by
  unfold appRemoveNginxConfigPath
  split
  · exact Coherent.reloadIfNeeded (coherent_of_needed rfl) b call
  · exact h

theorem Coherent.removeMultiple (h : n.Coherent) (domain_names : List String) (b : Bool) (call : NginxCall) :
    (n.appRemoveMultipleNginxConfigPath domain_names b call).1.Coherent := by
  unfold appRemoveMultipleNginxConfigPath
  split
  · exact h
  · apply Coherent.reloadIfNeeded
    clear * - h
    induction domain_names generalizing n with
    | nil => exact h
    | cons domain_name domain_names ih => exact ih (h.remove domain_name false call)

theorem Coherent.removeFile (h : n.Coherent) (locked : String → Bool) (name : String) :
    (removeFile locked n name).Coherent := by
  unfold Nginx.removeFile
  split
  · exact h
  · exact coherent_of_needed rfl

theorem Coherent.removeAllConfigs (h : n.Coherent) (locked : String → Bool) :
    (n.removeAllConfigs locked).Coherent := by
  unfold Nginx.removeAllConfigs
  generalize n.files.jxcore.keys = names
  induction names generalizing n with
  | nil => exact h
  | cons name names ih => exact ih (h.removeFile locked name)

theorem reload_running {b : Bool} (hrun : n.isRunning = true) (hb : (b && !n.needsReload) = false)
    (call : NginxCall) : n.reload b call = match call.out with
      | some out => (n.updateConfFile call.cfg, some out)
      | none =>
        ({ n.updateConfFile call.cfg with served := some (n.updateConfFile call.cfg).files, needsReload := false },
          none) := by
  unfold Nginx.reload
  rw [hb, hrun]
  cases call.out with
  | none => rfl
  | some out => rfl

theorem reload_stopped (hstop : n.isRunning = false) (b : Bool) (call : NginxCall) : n.reload b call = (n, none) := by
  unfold Nginx.reload
  split
  · rfl
  · rw [hstop]
    rfl

theorem updateConfFile_files {n' : Nginx} (h : n.files = n'.files) (cfg : String) :
    (n.updateConfFile cfg).files = (n'.updateConfFile cfg).files := by
  unfold updateConfFile
  dsimp only
  rw [h]
  split
  · rfl
  · rfl

/-- Where a tool leaves nginx as it was, nothing comes apart just when it leaves the files as they were. -/
theorem Coherent.commandLine_iff {tool : NginxTool} (h : n.Coherent) (hkept : (n.fresh.runTool tool).served = n.served) :
    (n.commandLine tool).Coherent ↔
      (n.isRunning = true → n.needsReload = false → (n.fresh.runTool tool).files = n.files) := by
  constructor
  · intro hc hrun hno
    obtain ⟨files, hserved⟩ := Option.isSome_iff_exists.1 hrun
    have hsame := hc files (hkept.trans hserved) hno
    exact hsame.symm.trans (h files hserved hno)
  · intro hsettled files hserved hno
    have hbefore : n.served = some files := hkept.symm.trans hserved
    have hrun : n.isRunning = true := by
      rw [isRunning, hbefore]
      rfl
    exact (h files hbefore hno).trans (hsettled hrun hno).symm

/-- A tool that leaves nginx stopped, or serving the files that it leaves. -/
theorem coherent_commandLine {tool : NginxTool} (h : ∀ files, (n.fresh.runTool tool).served = some files →
    n.needsReload = false → files = (n.fresh.runTool tool).files) : (n.commandLine tool).Coherent :=
  fun files hserved hno => h files hserved hno

theorem Coherent.fresh (h : n.Coherent) (hno : n.needsReload = false) : n.fresh.Coherent :=
  fun files hserved _ => h files hserved hno

/-- Starting and stopping keep to what is served, in whatever process. -/
theorem Coherent.commandLine_of_fresh {tool : NginxTool} (h : n.Coherent)
    (hkeeps : n.fresh.Coherent → (n.fresh.runTool tool).Coherent ∧ (n.fresh.runTool tool).needsReload = false) :
    (n.commandLine tool).Coherent := by
  apply coherent_commandLine
  intro files hserved hno
  obtain ⟨hc, hno'⟩ := hkeeps (h.fresh hno)
  exact hc files hserved hno'

theorem start_needsReload (n : Nginx) (out : Option String) : (n.start out).1.needsReload = n.needsReload := by
  cases out with
  | some out => rfl
  | none => rfl

theorem stop_needsReload (n : Nginx) (out : Option String) : (n.stop out).1.needsReload = n.needsReload := by
  cases out with
  | some out => rfl
  | none => rfl

theorem startIfStopped_needsReload (n : Nginx) (out : Option String) :
    (n.startIfStopped out).1.needsReload = n.needsReload := by
  unfold startIfStopped
  split
  · rfl
  · exact start_needsReload n out

theorem stopIfStarted_needsReload (n : Nginx) (out : Option String) :
    (n.stopIfStarted out).1.needsReload = n.needsReload := by
  unfold stopIfStarted
  split
  · exact stop_needsReload n out
  · rfl

theorem restart_needsReload (n : Nginx) (stopOut startOut : Option String) :
    (n.restart stopOut startOut).1.needsReload = n.needsReload := by
  unfold restart
  split
  · cases stopOut with
    | some out => rfl
    | none => exact start_needsReload (n.stop none).1 startOut
  · exact start_needsReload n startOut

theorem remove_served (n : Nginx) (domain_name : String) (call : NginxCall) :
    (n.appRemoveNginxConfigPath domain_name false call).1.served = n.served := by
  unfold appRemoveNginxConfigPath
  split
  · rfl
  · rfl

theorem fixConfig_served (n : Nginx) (removed : List String) (updated : Option String) :
    (n.runTool (.fixConfig removed updated)).served = n.served := by
  have hremoved : (removed.foldl (fun n domain_name => (n.appRemoveNginxConfigPath domain_name false ⟨"", none⟩).1)
      n).served = n.served := by
    induction removed generalizing n with
    | nil => rfl
    | cons domain_name removed ih => exact (ih _).trans (remove_served n domain_name ⟨"", none⟩)
  cases updated with
  | none => exact hremoved
  | some cfg => exact (updateConfFile_served _ cfg).trans hremoved

theorem remove_files {n' : Nginx} (h : n.files = n'.files) (domain_name : String) (call : NginxCall) :
    (n.appRemoveNginxConfigPath domain_name false call).1.files =
      (n'.appRemoveNginxConfigPath domain_name false call).1.files := by
  unfold appRemoveNginxConfigPath
  rw [h]
  split
  · rfl
  · exact h

/-- What is taken away does not depend on what a process knows. -/
theorem fixConfig_files (n : Nginx) (removed : List String) (updated : Option String) :
    (n.fresh.runTool (.fixConfig removed updated)).files = (n.runTool (.fixConfig removed updated)).files := by
  have hremoved : ∀ n n' : Nginx, n.files = n'.files →
      (removed.foldl (fun n domain_name => (n.appRemoveNginxConfigPath domain_name false ⟨"", none⟩).1) n).files =
        (removed.foldl (fun n domain_name => (n.appRemoveNginxConfigPath domain_name false ⟨"", none⟩).1) n').files := by
    induction removed with
    | nil => exact fun n n' h => h
    | cons domain_name removed ih => exact fun n n' h => ih _ _ (remove_files h domain_name ⟨"", none⟩)
  have hsame := hremoved n.fresh n rfl
  cases updated with
  | none => exact hsame
  | some cfg => exact updateConfFile_files hsame cfg

/-- A reload of the command line that fails leaves what is served behind what it has written. -/
theorem Coherent.toolReload_iff (h : n.Coherent) (call : NginxCall) :
    (n.commandLine (.reload call)).Coherent ↔ n.Settled (.commandLine (.reload call)) := by
  by_cases hrun : n.isRunning = true
  · have hreload := reload_running (n := n.fresh) hrun (Bool.false_and _) call
    cases hout : call.out with
    | none =>
      rw [hout] at hreload
      refine iff_of_true ?_ fun hsome => ?_
      · apply coherent_commandLine
        rw [runTool, hreload]
        rintro files ⟨⟩ -
        rfl
      · rw [hout] at hsome
        cases hsome
    | some out =>
      rw [hout] at hreload
      have hkept : (n.fresh.runTool (.reload call)).served = n.served := by
        rw [runTool, hreload]
        exact updateConfFile_served n.fresh call.cfg
      have hfiles : (n.fresh.runTool (.reload call)).files = (n.updateConfFile call.cfg).files := by
        have hsame : n.fresh.files = n.files := rfl
        rw [runTool, hreload]
        exact updateConfFile_files hsame call.cfg
      rw [h.commandLine_iff hkept, hfiles]
      exact ⟨fun hsettled _ => hsettled, fun hsettled => hsettled (by rw [hout]; rfl)⟩
  · have hstop : n.fresh.isRunning = false := by
      rw [Bool.not_eq_true] at hrun
      exact hrun
    refine iff_of_true (coherent_of_stopped ?_) fun _ hr => absurd hr hrun
    change (n.fresh.reload false call).1.served = none
    rw [reload_stopped hstop]
    rw [isRunning, Bool.not_eq_true, Option.isSome_eq_false_iff, Option.isNone_iff_eq_none] at hrun
    exact hrun

/-- What a tool of the command line must keep to. -/
theorem Coherent.tool_iff (h : n.Coherent) (tool : NginxTool) :
    (n.commandLine tool).Coherent ↔ n.Settled (.commandLine tool) := by
  cases tool with
  | start out =>
    refine iff_of_true (h.commandLine_of_fresh fun hc => ⟨hc.startIfStopped out, ?_⟩) trivial
    exact startIfStopped_needsReload n.fresh out
  | stop out =>
    refine iff_of_true (h.commandLine_of_fresh fun hc => ⟨hc.stopIfStarted out, ?_⟩) trivial
    exact stopIfStarted_needsReload n.fresh out
  | restart stopOut startOut =>
    refine iff_of_true (h.commandLine_of_fresh fun hc => ⟨hc.restart stopOut startOut, ?_⟩) trivial
    exact restart_needsReload n.fresh stopOut startOut
  | reload call => exact h.toolReload_iff call
  | fixConfig removed updated =>
    rw [h.commandLine_iff (fixConfig_served n.fresh removed updated), fixConfig_files]
    exact Iff.rfl

/-- In every run what nginx serves stays behind the files only while a reload is asked for, as long as on no command
line a reload fails that had something to write or files are taken away. -/
theorem coherent_of_run (h : n₀.Coherent) (hr : Runs.Reached step n₀ Settled n) :
    n.Coherent ∧ ∀ e, (n.step e).Coherent ↔ n.Settled e := by
  have hstep : ∀ n e, Coherent n → ((n.step e).Coherent ↔ n.Settled e) := by
    intro n e h
    cases e with
    | save m s domain_name b call => exact iff_of_true (h.save m s domain_name b call) trivial
    | remove domain_name b call => exact iff_of_true (h.remove domain_name b call) trivial
    | removeMultiple domain_names b call => exact iff_of_true (h.removeMultiple domain_names b call) trivial
    | removeAll locked => exact iff_of_true (h.removeAllConfigs locked) trivial
    | reload call => exact iff_of_true (h.reload call) trivial
    | start out => exact iff_of_true (h.start out) trivial
    | startIfStopped out => exact iff_of_true (h.startIfStopped out) trivial
    | stop out => exact iff_of_true (h.stop out) trivial
    | stopIfStarted out => exact iff_of_true (h.stopIfStarted out) trivial
    | restart stopOut startOut => exact iff_of_true (h.restart stopOut startOut) trivial
    | commandLine tool => exact h.tool_iff tool
    | ends => exact iff_of_true (coherent_of_stopped rfl) trivial
  have hn : n.Coherent := hr.keeps h fun n e hn he => (hstep n e hn).2 he
  exact ⟨hn, fun e => hstep n e hn⟩

/-- Nginx as it is installed. -/
def installedNginx : Nginx := ⟨⟨some "http \x7b\n\x7d\n".toList, .empty⟩, none, false, none⟩

/-- Nginx that has been started and reloaded with the site of a domain. -/
def servedNginx : Nginx :=
  [NginxEvent.start none, .save dualStack dualStackSite "ann.org" true ⟨"server \x7b\x7d", none⟩].foldl step
    installedNginx

theorem coherent_of_run_sample :
    servedNginx.Coherent ∧ ¬(servedNginx.step (.commandLine (.fixConfig ["ann.org"] none))).Coherent := by
  have hrun : Runs.Reached step installedNginx Settled servedNginx :=
    Runs.Reached.run .start ⟨trivial, trivial, trivial⟩
  obtain ⟨hc, hsettled⟩ := coherent_of_run (coherent_of_stopped rfl) hrun
  refine ⟨hc, fun hfixed => ?_⟩
  have hfiles := (hsettled _).1 hfixed rfl rfl
  have hgone := congrArg (fun files : NginxFiles => decide ("ann.org.conf" ∈ files.jxcore)) hfiles
  revert hgone
  decide +kernel

end Coherence

section Files
variable {n : Nginx} {call : NginxCall} {m : Machine} {s : Store} {d f : String}

theorem configFile_inj {d d' : String} : configFile d = configFile d' ↔ d = d' := by
  constructor
  · intro h
    have hchars := congrArg String.toList h
    rw [configFile, configFile, String.toList_append, String.toList_append] at hchars
    exact String.toList_injective (List.append_cancel_right hchars)
  · exact congrArg configFile

/-- A reload writes no file of a domain. -/
theorem get?_updateConfFile (hf : f ≠ defaultFile) (cfg : String) :
    (n.updateConfFile cfg).files.jxcore.get? f = n.files.jxcore.get? f := by
  unfold updateConfFile
  dsimp only
  split
  · rfl
  · exact Dict.get?_set_ne _ _ hf

theorem get?_reload (hf : f ≠ defaultFile) (b : Bool) (call : NginxCall) :
    (n.reload b call).1.files.jxcore.get? f = n.files.jxcore.get? f := by
  unfold Nginx.reload
  split
  · rfl
  · split
    · rfl
    · have hupdate := get?_updateConfFile (n := n) hf call.cfg
      cases call.out with
      | none => exact hupdate
      | some out => exact hupdate

/-- A reload that reports no error leaves nginx with the files as they are. -/
theorem Coherent.reload_done (h : n.Coherent) (hout : call.out ≠ some "")
    (hok : (n.reload true call).2.getD "" = "") {files : NginxFiles}
    (hserved : (n.reload true call).1.served = some files) : files = (n.reload true call).1.files := by
  by_cases hrun : n.isRunning = true
  · by_cases hneeds : n.needsReload = true
    · have hb : (true && !n.needsReload) = false := by
        rw [hneeds]
        rfl
      rw [reload_running hrun hb] at hok hserved ⊢
      cases ho : call.out with
      | none =>
        rw [ho] at hserved
        cases hserved
        rfl
      | some out =>
        rw [ho] at hok hout
        exact absurd (congrArg some hok) hout
    · have hno : n.needsReload = false := Bool.not_eq_true _ ▸ hneeds
      have hsame : n.reload true call = (n, none) := by
        rw [Nginx.reload, hno]
        rfl
      rw [hsame] at hserved ⊢
      exact h files hserved hno
  · have hstop : n.isRunning = false := Bool.not_eq_true _ ▸ hrun
    rw [reload_stopped hstop] at hserved
    rw [isRunning, hserved] at hstop
    cases hstop

theorem conf_text_ne_empty (t : Site) : t.conf.text ≠ "" := by
  intro h
  have hchars := congrArg String.toList h
  rw [Site.conf, NginxConf.text, String.toList_append, String.toList_append, List.append_assoc] at hchars
  have hpreamble := (List.append_eq_nil_iff.1 hchars).1
  simp [createConfig] at hpreamble

/-- What saving a configuration leaves before nginx is told. -/
def written (n : Nginx) (domain_name cfg : String) : Nginx :=
  if (n.files.jxcore.get? (configFile domain_name)).getD "" = cfg then n
  else { n.writeFile (configFile domain_name) cfg with needsReload := true }

theorem appSave_eq {t : Site} (ht : s.site m d = .ok (some t)) (b : Bool) (call : NginxCall) :
    n.appSaveNginxConfigPath m s d b call = (n.written d t.conf.text).reloadIfNeeded b call := by
  rw [appSaveNginxConfigPath, ht]
  rfl

theorem get?_written (n : Nginx) (d f : String) {cfg : String} (hcfg : cfg ≠ "") :
    (n.written d cfg).files.jxcore.get? f = if f = configFile d then some cfg else n.files.jxcore.get? f := by
  unfold written
  split
  · rename_i hsame
    split
    · rename_i hf
      rw [hf]
      cases hget : n.files.jxcore.get? (configFile d) with
      | none =>
        rw [hget] at hsame
        exact absurd hsame.symm hcfg
      | some current =>
        rw [hget] at hsame
        exact congrArg some hsame
    · rfl
  · exact Dict.get?_set _ _ _ _

theorem Coherent.written (h : n.Coherent) (d cfg : String) : (n.written d cfg).Coherent := by
  unfold Nginx.written
  split
  · exact h
  · exact coherent_of_needed rfl

/-- A configuration that is saved and reloaded without an error is there and is served, if nginx runs, and no other
domain's is touched. -/
theorem save_served (h : n.Coherent) (hd : configFile d ≠ defaultFile) (hout : call.out ≠ some "")
    (hok : (n.appSaveNginxConfigPath m s d true call).2 = .ok false) :
    ∃ t, s.site m d = .ok (some t) ∧
      (∀ f, f ≠ defaultFile → (n.appSaveNginxConfigPath m s d true call).1.files.jxcore.get? f =
        if f = configFile d then some t.conf.text else n.files.jxcore.get? f) ∧
      ∀ files, (n.appSaveNginxConfigPath m s d true call).1.served = some files →
        files = (n.appSaveNginxConfigPath m s d true call).1.files ∧
          files.jxcore.get? (configFile d) = some t.conf.text := by
  cases hs : s.site m d with
  | error e =>
    rw [appSaveNginxConfigPath, hs] at hok
    cases hok
  | ok t? =>
    cases t? with
    | none =>
      rw [appSaveNginxConfigPath, hs] at hok
      cases hok
    | some t =>
      rw [appSave_eq hs] at hok ⊢
      have hget : ∀ f, f ≠ defaultFile → ((n.written d t.conf.text).reload true call).1.files.jxcore.get? f =
          if f = configFile d then some t.conf.text else n.files.jxcore.get? f := by
        intro f hf
        rw [get?_reload hf, get?_written _ _ _ (conf_text_ne_empty t)]
      have hquiet : ((n.written d t.conf.text).reload true call).2.getD "" = "" := by
        by_contra hne
        rw [reloadIfNeeded, if_pos rfl] at hok
        exact absurd (Except.ok.inj hok) (by rw [decide_eq_true hne]; decide)
      refine ⟨t, rfl, hget, fun files hserved => ?_⟩
      have hfiles := (h.written d t.conf.text).reload_done hout hquiet hserved
      refine ⟨hfiles, ?_⟩
      rw [hfiles]
      exact (hget _ hd).trans (if_pos rfl)

theorem save_served_sample : ∃ t : Site, ∀ files,
    ((installedNginx.step (.start none)).appSaveNginxConfigPath dualStack dualStackSite "ann.org" true
      ⟨"server \x7b\x7d", none⟩).1.served = some files → files.jxcore.get? "ann.org.conf" = some t.conf.text := by
  have hstarted : (installedNginx.step (.start none)).Coherent :=
    (coherent_of_stopped (n := installedNginx) rfl).start none
  have hok : ((installedNginx.step (.start none)).appSaveNginxConfigPath dualStack dualStackSite "ann.org" true
      ⟨"server \x7b\x7d", none⟩).2 = .ok false := rfl
  obtain ⟨t, -, -, hserved⟩ := save_served hstarted (by decide) (fun h => by cases h) hok
  exact ⟨t, fun files hf => (hserved files hf).2⟩

/-- The domains before the first one whose configuration throws. -/
def configured (m : Machine) (s : Store) (domains : List String) : List String :=
  domains.takeWhile fun d => (s.site m d).isOk

theorem saveAll_eq (n : Nginx) (domains : List String) : (saveAll m s call domains n).1 =
    (configured m s domains).foldl (fun n domain_name => (n.appSaveNginxConfigPath m s domain_name false call).1) n := by
  induction domains generalizing n with
  | nil => rfl
  | cons d domains ih =>
    unfold saveAll configured
    rw [List.takeWhile_cons]
    cases hs : s.site m d with
    | error e =>
      rw [appSaveNginxConfigPath, hs]
      rfl
    | ok t? =>
      have hok : (n.appSaveNginxConfigPath m s d false call).2.isOk = true := by
        cases t? with
        | none =>
          rw [appSaveNginxConfigPath, hs]
          rfl
        | some t =>
          rw [appSave_eq hs]
          rfl
      rcases hsave : n.appSaveNginxConfigPath m s d false call with ⟨n', e | b⟩
      · rw [hsave] at hok
        cases hok
      · have hgoes : (Except.ok t? : Js (Option Site)).isOk = true := rfl
        dsimp only
        rw [ih, if_pos hgoes, List.foldl_cons, hsave]
        rfl

theorem get?_save (n : Nginx) (f : String) (call : NginxCall) :
    (n.appSaveNginxConfigPath m s d false call).1.files.jxcore.get? f =
      match s.site m d with
      | .ok (some t) => if f = configFile d then some t.conf.text else n.files.jxcore.get? f
      | _ => n.files.jxcore.get? f := by
  cases hs : s.site m d with
  | error e =>
    rw [appSaveNginxConfigPath, hs]
  | ok t? =>
    cases t? with
    | none =>
      rw [appSaveNginxConfigPath, hs]
    | some t =>
      rw [appSave_eq hs]
      exact get?_written n d f (conf_text_ne_empty t)

/-- What cannot be deleted and the default file are all that is left. -/
theorem get?_removeAllConfigs (locked : String → Bool) (hf : f ≠ defaultFile) (hlocked : locked f = false) :
    (n.removeAllConfigs locked).files.jxcore.get? f = none := by
  have hstep : ∀ (n : Nginx) name, (removeFile locked n name).files.jxcore.get? f =
      if f = name then none else n.files.jxcore.get? f := by
    intro n name
    unfold removeFile
    split
    · rename_i hkept
      split
      · rename_i hname
        rcases hkept with hkept | hkept
        · exact absurd (hname.trans hkept) hf
        · rw [← hname, hlocked] at hkept
          cases hkept
      · rfl
    · dsimp only
      exact Dict.get?_erase _ _ _
  have hall : ∀ (names : List String) (n : Nginx), (names.foldl (removeFile locked) n).files.jxcore.get? f =
      if f ∈ names then none else n.files.jxcore.get? f := by
    intro names
    induction names with
    | nil =>
      intro n
      rfl
    | cons name names ih =>
      intro n
      rw [List.foldl_cons, ih, hstep]
      by_cases hmem : f ∈ names
      · rw [if_pos hmem, if_pos (List.mem_cons_of_mem _ hmem)]
      · rw [if_neg hmem]
        by_cases hname : f = name
        · rw [if_pos hname, if_pos (hname ▸ List.mem_cons_self)]
        · rw [if_neg hname, if_neg]
          rw [List.mem_cons, not_or]
          exact ⟨hname, hmem⟩
  rw [removeAllConfigs, hall]
  split
  · rfl
  · rename_i hno
    exact Dict.get?_eq_none.2 hno

/-- Behind the loop, and behind the reload that follows it, a file of a domain is what the loop has left. -/
theorem get?_startAll (hf : f ≠ defaultFile) (locked : String → Bool) (domains : List String) :
    (n.startAll m s domains locked call).files.jxcore.get? f =
      (saveAll m s call domains (n.removeAllConfigs locked)).1.files.jxcore.get? f := by
  unfold startAll
  rcases saveAll m s call domains (n.removeAllConfigs locked) with ⟨n', e | u⟩
  · rfl
  · exact get?_reload hf true call

/-- Behind a start of all applications the files are exactly the configurations of the domains that are started. -/
theorem files_of_startAll_iff {locked : String → Bool} {domains : List String} {text : String}
    (hf : f ≠ defaultFile) (hlocked : locked f = false) :
    (n.startAll m s domains locked call).files.jxcore.get? f = some text ↔
      ∃ d ∈ configured m s domains, ∃ t, s.site m d = .ok (some t) ∧ f = configFile d ∧ text = t.conf.text := by
  rw [get?_startAll hf, saveAll_eq]
  generalize configured m s domains = domains
  induction domains using List.reverseRecOn with
  | nil =>
    rw [List.foldl_nil, get?_removeAllConfigs locked hf hlocked]
    refine iff_of_false (fun h => by cases h) ?_
    rintro ⟨d, hd, -⟩
    cases hd
  | append_singleton domains d ih =>
    have hmem : ∀ P : String → Prop, (∃ x ∈ domains ++ [d], P x) ↔ (∃ x ∈ domains, P x) ∨ P d := by
      intro P
      simp only [List.mem_append, List.mem_singleton, or_and_right, exists_or, exists_eq_left]
    rw [List.foldl_append, List.foldl_cons, List.foldl_nil, get?_save, hmem]
    by_cases hsite : ∃ t, s.site m d = .ok (some t) ∧ f = configFile d
    · obtain ⟨t, ht, hfd⟩ := hsite
      rw [ht]
      dsimp only
      rw [if_pos hfd]
      constructor
      · intro he
        exact .inr ⟨t, rfl, hfd, (Option.some.inj he).symm⟩
      · rintro (⟨d', -, t', ht', hfd', rfl⟩ | ⟨t', ht', -, rfl⟩)
        · rw [configFile_inj.1 (hfd'.symm.trans hfd), ht] at ht'
          cases ht'
          rfl
        · cases ht'
          rfl
    · have hsame : (match s.site m d with
          | .ok (some t) => if f = configFile d then some t.conf.text else
            (domains.foldl (fun n domain_name => (n.appSaveNginxConfigPath m s domain_name false call).1)
              (n.removeAllConfigs locked)).files.jxcore.get? f
          | _ => (domains.foldl (fun n domain_name => (n.appSaveNginxConfigPath m s domain_name false call).1)
              (n.removeAllConfigs locked)).files.jxcore.get? f) =
          (domains.foldl (fun n domain_name => (n.appSaveNginxConfigPath m s domain_name false call).1)
            (n.removeAllConfigs locked)).files.jxcore.get? f := by
        split
        · rename_i t ht
          rw [if_neg fun hfd => hsite ⟨t, ht, hfd⟩]
        · rfl
      rw [hsame, ih]
      constructor
      · exact .inl
      · rintro (h | ⟨t, ht, hfd, -⟩)
        · exact h
        · exact absurd ⟨t, ht, hfd⟩ hsite

/-- The file of a domain that was removed is there beside that of one that stays. -/
def staleNginx : Nginx := installedNginx.writeFile "old.org.conf" "server \x7b\x7d"

theorem files_of_startAll_iff_sample :
    (∃ text, (staleNginx.startAll dualStack dualStackSite ["ann.org"] (fun _ => false) ⟨"", none⟩).files.jxcore.get?
      "ann.org.conf" = some text) ∧
    (staleNginx.startAll dualStack dualStackSite ["ann.org"] (fun _ => false) ⟨"", none⟩).files.jxcore.get?
      "old.org.conf" = none := by
  obtain ⟨t, ht⟩ : ∃ t, dualStackSite.site dualStack "ann.org" = .ok (some t) := ⟨_, rfl⟩
  have hall : configured dualStack dualStackSite ["ann.org"] = ["ann.org"] := rfl
  constructor
  · refine ⟨t.conf.text, (files_of_startAll_iff (by decide) rfl).2 ⟨"ann.org", ?_, t, ht, rfl, rfl⟩⟩
    rw [hall]
    exact List.mem_singleton_self _
  · rw [Option.eq_none_iff_forall_ne_some]
    intro text h
    obtain ⟨d, hd, t', -, hf, -⟩ := (files_of_startAll_iff (by decide) rfl).1 h
    rw [hall] at hd
    rw [List.mem_singleton.1 hd] at hf
    exact absurd hf (by decide)

end Files

section Include
variable {a b str : List Char} {c : Char}

theorem includeLine_idem (str : List Char) : includeLine (includeLine str) = includeLine str := by
  by_cases hin : includeText <:+: str
  · have hsame : includeLine str = str := if_pos hin
    rw [hsame, hsame]
  · cases hpos : lastBrace str with
    | none =>
      have hsame : includeLine str = str := by
        rw [includeLine, if_neg hin, hpos]
      rw [hsame, hsame]
    | some pos =>
      have hnew : includeLine str =
          (sliceTo str (pos - 1) ++ "\n\t".toList) ++ includeText ++ ("\n".toList ++ str.drop pos) := by
        rw [includeLine, if_neg hin, hpos]
        exact List.append_assoc _ _ _
      have hin' : includeText <:+: includeLine str := ⟨_, _, hnew.symm⟩
      exact if_pos hin'

theorem lastBrace_append (hb : '\x7d' ∉ b) : lastBrace (a ++ '\x7d' :: b) = some a.length := by
  have hfind : (a ++ '\x7d' :: b).reverse.findIdx? (· = '\x7d') = some b.length := by
    rw [List.reverse_append, List.reverse_cons, List.append_assoc, List.findIdx?_append, List.findIdx?_append]
    have hnone : b.reverse.findIdx? (· = '\x7d') = none := by
      rw [List.findIdx?_eq_none_iff]
      intro x hx
      have hne : x ≠ '\x7d' := by
        rintro rfl
        exact hb (List.mem_reverse.1 hx)
      exact decide_eq_false hne
    rw [hnone]
    simp
  rw [lastBrace, hfind]
  simp

/-- The line takes the place of the character in front of the last brace; nothing else is lost. -/
theorem includeLine_eq (hin : ¬includeText <:+: a ++ c :: '\x7d' :: b) (hb : '\x7d' ∉ b) :
    includeLine (a ++ c :: '\x7d' :: b) =
      a ++ ("\n\t".toList ++ (includeText ++ ("\n".toList ++ '\x7d' :: b))) := by
  have hsplit : a ++ c :: '\x7d' :: b = (a ++ [c]) ++ '\x7d' :: b := by
    rw [List.append_assoc]
    rfl
  have hlen : (a ++ [c]).length = a.length + 1 := by
    rw [List.length_append]
    rfl
  rw [includeLine, if_neg hin, hsplit, lastBrace_append hb, hlen]
  have hslice : sliceTo ((a ++ [c]) ++ '\x7d' :: b) ((a.length + 1 : Nat) - 1) = a := by
    have hstop : ((a.length + 1 : Nat) : Int) - 1 = a.length := by omega
    rw [sliceTo, hstop, if_neg (by omega), Int.toNat_natCast, List.append_assoc, List.take_left]
  have hdrop : ((a ++ [c]) ++ '\x7d' :: b).drop (a.length + 1) = '\x7d' :: b := by
    rw [← hlen, List.drop_left]
  dsimp only
  rw [hslice, hdrop, List.append_assoc, List.append_assoc, List.append_assoc]

/-- Bringing the files up to date a second time changes nothing, and the first time costs `nginx.conf` a single
character. -/
theorem updateConfFile_once (n : Nginx) (cfg : String) :
    (n.updateConfFile cfg).updateConfFile cfg = n.updateConfFile cfg ∧
      ∀ a c b, n.files.conf = some (a ++ c :: '\x7d' :: b) → '\x7d' ∉ b → ¬includeText <:+: a ++ c :: '\x7d' :: b →
        (n.updateConfFile cfg).files.conf =
          some (a ++ ("\n\t".toList ++ (includeText ++ ("\n".toList ++ '\x7d' :: b)))) := by
  have hconf : ∀ n : Nginx, (n.updateConfFile cfg).files.conf = n.files.conf.map includeLine := by
    intro n
    unfold updateConfFile
    dsimp only
    split
    · rfl
    · rfl
  constructor
  · have htwice : (n.files.conf.map includeLine).map includeLine = n.files.conf.map includeLine := by
      rw [Option.map_map]
      congr 1
      funext str
      exact includeLine_idem str
    by_cases hsame : (n.files.jxcore.get? defaultFile).getD "" = cfg
    · have hupdate : n.updateConfFile cfg = { n with files := { n.files with conf := n.files.conf.map includeLine } } :=
        if_pos hsame
      rw [hupdate, updateConfFile]
      dsimp only
      rw [if_pos hsame, htwice]
    · have hupdate : n.updateConfFile cfg =
          { n with files := ⟨n.files.conf.map includeLine, n.files.jxcore.set defaultFile cfg⟩ } := if_neg hsame
      rw [hupdate, updateConfFile]
      dsimp only
      rw [Dict.get?_set_self, Option.getD_some, if_pos rfl, htwice]
  · intro a c b hfile hb hin
    rw [hconf, hfile, Option.map_some, includeLine_eq hin hb]

theorem updateConfFile_once_sample : (installedNginx.updateConfFile "").files.conf =
    some ("http \x7b".toList ++ ("\n\t".toList ++ (includeText ++ ("\n".toList ++ '\x7d' :: "\n".toList)))) :=
  (updateConfFile_once installedNginx "").2 "http \x7b".toList '\n' "\n".toList rfl (by decide) (by decide)

end Include

end Nginx
end JXPanel

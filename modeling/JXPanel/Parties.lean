import JXPanel.Copies
import JXPanel.Ports
import JXPanel.QuotaPass
import JXPanel.Rereads

namespace JXPanel
set_option autoImplicit true

/-- The programs that have a copy of the store: the panel, its scheduler, and the tools of the command line. -/
inductive Process
  | panel
  | scheduler
  | tool (n : Nat)
deriving DecidableEq

/-- What is done to a copy between two times that it may be written. -/
inductive Change
  | call (c : Call)
  | dropUser (name : String)
  | placeDomain (name : String) (data : Domain)
  | dropDomain (owner name : String)
  | setUserField (name key : String) (value : JsVal)
  | setConfigValue (param : String) (value : JsVal)
  | checkQuotas (disk : Disk)

/-- A call of the database, or a change of a record that is written by `updateDBFile`. -/
inductive Action
  | call (c : Call)
  | suspendUser (name o : String)
  | unSuspendUser (name o : String)
  | setUserField (name key : String) (value : JsVal)
  | setConfigValue (param : String) (value : JsVal) (update : Bool)

namespace Store
variable (s : Store)

/-- The rest of `deleteUser` once the plans of the user are deleted. -/
def dropUser (name : String) : Store × Js Unit :=
  match Collect.runAll (dropDomainOf name) s.domains.keys (s.detachUser name) with
  | (s', .error f) => (s', .error f)
  | (s', .ok ()) => (s'.eraseUser name, .ok ())

/-- The first part of an `updateDomain` that moves the domain. -/
def placeDomain (name : String) (data : Domain) : Store × Js (Option String) :=
  match (s.setDomain name none).addDomain data.owner name data.toObj with
  | (s', .error f) => (s', .error f)
  | (s', .ok (some res)) => (s'.setDomain name (s.getDomain? name), .ok (some res))
  | (s', .ok none) => (s', .ok none)

def setUserField (name key : String) (value : JsVal) : Store := s.modifyUser name fun U => U.assign key value

end Store

def Change.apply (s : Store) : Change → Store
  | .call c => s.exec c
  | .dropUser name => (s.dropUser name).1
  | .placeDomain name data => (s.placeDomain name data).1
  | .dropDomain owner name => s.detachDomain owner name
  | .setUserField name key value => s.setUserField name key value
  | .setConfigValue param value => s.setConfigValue param value
  | .checkQuotas disk => (s.checkQuotas disk).store

/-- The changes of a turn, each with whether the copy is written after it. -/
abbrev Turn := List (Change × Bool)

def Turn.apply (s : Store) (l : Turn) : Store := l.foldl (fun s x => x.1.apply s) s

/-- Only a call that returns `null` comes to its `UpdateDB`. -/
def accepted : Js (Option String) → Bool
  | .ok none => true
  | _ => false

namespace Store

/-- The plans of a user are deleted one after the other, and each `deletePlan` writes the copy. -/
def deletions (name : String) : List String → Store → Turn
  | [], s => [(.dropUser name, (s.dropUser name).2.isOk)]
  | o :: os, s =>
    match s.deletePlan o with
    | (_, .error _) => [(.call (.deletePlan o), false)]
    | (s', .ok _) => (.call (.deletePlan o), true) :: deletions name os s'

def userDeletions (s : Store) (name : String) : Turn :=
  match s.users.get? name with
  | none => []
  | some user => deletions name user.subPlans.keys s

/-- A domain that is moved is written in its new place before it leaves the old one. -/
def domainUpdates (s : Store) (name : String) (data : Domain) : Turn :=
  match s.getDomain? name with
  | none => []
  | some domain =>
    match s.users.get? domain.owner with
    | none => []
    | some user =>
      if data.owner ≠ user.name then
        if accepted (s.placeDomain name data).2 then
          [(.placeDomain name data, true), (.dropDomain domain.owner name, true)]
        else [(.placeDomain name data, false)]
      else [(.call (.updateDomain name data), true)]

/-- What a call does, and when it calls `UpdateDB`. -/
def changes (s : Store) : Call → Turn
  | .addPlan owner name opts => [(.call (.addPlan owner name opts), accepted (s.addPlan owner name opts).2)]
  | .addUser plan name opts => [(.call (.addUser plan name opts), accepted (s.addUser plan name opts).2)]
  | .addDomain owner name opts => [(.call (.addDomain owner name opts), accepted (s.addDomain owner name opts).2)]
  | .updateUser name data => [(.call (.updateUser name data), accepted (s.updateUser name data).2)]
  | .updatePlan name data => [(.call (.updatePlan name data), accepted (s.updatePlan name data).2)]
  | .updateDomain name data => s.domainUpdates name data
  | .deleteDomain name => [(.call (.deleteDomain name), (s.deleteDomain name).2.isOk)]
  | .deletePlan name => [(.call (.deletePlan name), (s.deletePlan name).2.isOk)]
  | .deleteUser name => s.userDeletions name
  | .suspendPlan name o => [(.call (.suspendPlan name o), false)]
  | .unSuspendPlan name o => [(.call (.unSuspendPlan name o), false)]
  | .suspendUser name o => [(.call (.suspendUser name o), false)]
  | .unSuspendUser name o => [(.call (.unSuspendUser name o), false)]

def turn (s : Store) : Action → Turn
  | .call c => s.changes c
  | .suspendUser name o => [(.call (.suspendUser name o), (s.suspendUser name o).2.isOk)]
  | .unSuspendUser name o => [(.call (.unSuspendUser name (some o)), (s.unSuspendUser name (some o)).2.isOk)]
  | .setUserField name key value => if name ∈ s.users then [(.setUserField name key value, true)] else []
  | .setConfigValue param value update => [(.setConfigValue param value, update)]

/-- What is done in one turn of the event loop. -/
def turns : Store → List Action → Turn
  | _, [] => []
  | s, a :: as => s.turn a ++ turns ((s.turn a).apply s) as

variable {s : Store}

theorem deletions_apply {name : String} (l : List String) (subs : Report) :
    (deletions name l s).apply s = match deleteSubPlans l s subs with
      | (s', .error _) => s'
      | (s', .ok _) => (s'.dropUser name).1 := by
  induction l generalizing s subs with
  | nil => rfl
  | cons o os ih =>
    rw [deletions, deleteSubPlans]
    have hexec : Change.apply s (.call (.deletePlan o)) = (s.deletePlan o).1 := rfl
    rcases hdel : s.deletePlan o with ⟨s', r⟩
    rw [hdel] at hexec
    cases r with
    | error f => exact hexec
    | ok res =>
      dsimp only
      rw [← ih, Turn.apply, List.foldl_cons, hexec]
      rfl

theorem userDeletions_apply (s : Store) (name : String) : (s.userDeletions name).apply s = (s.deleteUser name).1 := by
  unfold userDeletions deleteUser
  cases hU : s.users.get? name with
  | none => rfl
  | some U =>
    dsimp only
    rw [deletions_apply _ { plans := [], users := [name], domains := [] }]
    rcases deleteSubPlans U.subPlans.keys s { plans := [], users := [name], domains := [] } with ⟨s', r⟩
    cases r with
    | error f => rfl
    | ok subs =>
      dsimp only
      unfold dropUser
      rcases Collect.runAll (dropDomainOf name) s'.domains.keys (s'.detachUser name) with ⟨s'', r'⟩
      cases r' with
      | error f => rfl
      | ok _ => rfl

theorem domainUpdates_apply (s : Store) (name : String) (data : Domain) :
    (s.domainUpdates name data).apply s = (s.updateDomain name data).1 := by
  cases hD : s.getDomain? name with
  | none =>
    rw [domainUpdates, updateDomain, hD]
    rfl
  | some D =>
    cases hU : s.users.get? D.owner with
    | none =>
      rw [domainUpdates, updateDomain, hD]
      dsimp only
      rw [hU]
      rfl
    | some U =>
      by_cases hne : data.owner ≠ U.name
      · rcases hadd : (s.setDomain name none).addDomain data.owner name data.toObj with ⟨s', r⟩
        have hmoved := updateDomain_moved hD hU hne hadd
        have hturn : s.domainUpdates name data = if accepted (s.placeDomain name data).2 then
            [(.placeDomain name data, true), (.dropDomain D.owner name, true)]
          else [(.placeDomain name data, false)] := by
          rw [domainUpdates, hD]
          dsimp only
          rw [hU]
          exact if_pos hne
        rw [hmoved, hturn]
        cases r with
        | error f =>
          have hplace : s.placeDomain name data = (s', .error f) := by rw [placeDomain, hadd]
          rw [hplace]
          exact congrArg Prod.fst hplace
        | ok res =>
          cases res with
          | some res =>
            have hplace : s.placeDomain name data = (s'.setDomain name (some D), .ok (some res)) := by
              rw [placeDomain, hadd, hD]
            rw [hplace]
            exact congrArg Prod.fst hplace
          | none =>
            have hplace : s.placeDomain name data = (s', .ok none) := by rw [placeDomain, hadd]
            have hplaced : Change.apply s (.placeDomain name data) = s' := congrArg Prod.fst hplace
            rw [hplace, if_pos (show accepted (.ok none) = true from rfl), Turn.apply, List.foldl_cons, hplaced]
            rfl
      · have hturn : s.domainUpdates name data = [(.call (.updateDomain name data), true)] := by
          rw [domainUpdates, hD]
          dsimp only
          rw [hU]
          exact if_neg hne
        rw [hturn]
        rfl

/-- The changes of a call make up the call. -/
theorem changes_apply (s : Store) (c : Call) : (s.changes c).apply s = s.exec c := by
  cases c with
  | updateDomain name data => exact s.domainUpdates_apply name data
  | deleteUser name => exact s.userDeletions_apply name
  | _ => rfl

/-- A turn of calls does to a copy what the run of them does to the store. -/
theorem turns_apply (s : Store) (cs : List Call) : (turns s (cs.map .call)).apply s = s.run cs := by
  induction cs generalizing s with
  | nil => rfl
  | cons c cs ih =>
    have hone : (s.turn (.call c)).apply s = s.exec c := s.changes_apply c
    have hsplit : ∀ (l l' : Turn), (l ++ l').apply s = l'.apply (l.apply s) := fun l l' => List.foldl_append
    rw [List.map_cons, turns, hsplit, hone]
    exact ih (s.exec c)

end Store

/-- The store as a text. -/
def storeFormat : Copies.Format Change Store (List Char) where
  act _ c s := c.apply s
  enc := Store.saved
  dec t := (Store.readDB t).toOption

/-- The copies with the messages on their way to the panel, the mark beside the file, and `markForReload` of each tool
that was started. -/
structure Parties (α β : Type) where
  system : Copies.System Process Change α β
  messages : Nat
  marker : Bool
  marks : Nat → Option Bool

/-- A step of one of the programs or of the database. -/
inductive PartyStep
  | act (as : List Action)
  | message
  | reloadIfNeeded
  | check_quotas
  | start (n : Nat)
  | fetch (w : Process)
  | reload
  | pass (disk : Disk)
  | command (n : Nat) (as : List Action)
  | apply

/-- A step where it is known what is changed. -/
inductive Move
  | turn (l : Turn)
  | message
  | reloadIfNeeded
  | check_quotas
  | start (n : Nat)
  | fetch (w : Process)
  | reload
  | pass (l : Turn)
  | command (n : Nat) (l : Turn)
  | apply

def record (w : Process) (l : Turn) : List (Copies.Event Process Change) :=
  l.map fun x => if x.2 then .save w x.1 else .change w x.1

namespace Parties
variable {α β : Type}

/-- What was given is taken over and changed at once. -/
def takeOver (p : Parties α β) (w : Process) (l : Turn) : List (Copies.Event Process Change) :=
  match (p.system.party w).fetched with
  | [] => []
  | _ => .take w :: record w l

def events (p : Parties α β) : Move → List (Copies.Event Process Change)
  | .turn l => record .panel l
  | .message => if p.messages = 0 then [] else [.ask .panel]
  | .reloadIfNeeded => if p.marker then [.ask .panel] else []
  | .check_quotas => [.ask .scheduler]
  | .start n => if p.marks n = none then [.ask (.tool n)] else []
  | .fetch w => [.fetch w]
  | .reload => p.takeOver .panel []
  | .pass l => p.takeOver .scheduler l
  | .command n l => p.takeOver (.tool n) l
  | .apply => [.apply]

/-- The tool whose write is the next one. -/
def nextTool (p : Parties α β) : Option Nat :=
  match p.system.writes with
  | (.tool n, _) :: _ => some n
  | _ => none

/-- A pass that has written sends `reloadDB`, and the first write of a tool leaves the mark. -/
def move (F : Copies.Format Change α β) (p : Parties α β) (m : Move) : Parties α β where
  system := (p.events m).foldl (Copies.System.step F) p.system
  messages := match m with
    | .message => p.messages - 1
    | .pass l => if (p.system.party .scheduler).fetched ≠ [] ∧ l.any Prod.snd then p.messages + 1 else p.messages
    | _ => p.messages
  marker := match m with
    | .reloadIfNeeded => false
    | .apply => p.marker || decide (p.nextTool.bind p.marks = some true)
    | _ => p.marker
  marks := match m with
    | .start n => if p.marks n = none then Function.update p.marks n (some true) else p.marks
    | .apply => match p.nextTool with
      | none => p.marks
      | some n => Function.update p.marks n (some false)
    | _ => p.marks

end Parties

namespace Parties
variable (p : Parties Store (List Char))

/-- The store that a callback is given. -/
def given (w : Process) : Option Store :=
  (p.system.party w).fetched.head?.bind fun t => (Store.readDB t).toOption

/-- What a step changes in the copy that it is made on. -/
def resolve : PartyStep → Move
  | .act as => .turn (((p.system.party .panel).copy.map fun s => s.turns as).getD [])
  | .message => .message
  | .reloadIfNeeded => .reloadIfNeeded
  | .check_quotas => .check_quotas
  | .start n => .start n
  | .fetch w => .fetch w
  | .reload => .reload
  | .pass disk => .pass (((p.given .scheduler).map fun s => [(.checkQuotas disk, (s.checkQuotas disk).written)]).getD [])
  | .command n as => .command n (((p.given (.tool n)).map fun s => s.turns as).getD [])
  | .apply => .apply

def step (e : PartyStep) : Parties Store (List Char) := p.move storeFormat (p.resolve e)

end Parties

/-! Changes with data that JSON has a form for. -/

def DurableChange : Change → Prop
  | .call c => DurableCall c
  | .placeDomain _ data => data.Durable
  | .setUserField _ _ value => value.Storable
  | .setConfigValue _ value => value.Storable
  | _ => True

def DurableAction : Action → Prop
  | .call c => DurableCall c
  | .setUserField _ _ value => value.Storable
  | .setConfigValue _ value _ => value.Storable
  | _ => True

def DurableStep : PartyStep → Prop
  | .act as => ∀ a ∈ as, DurableAction a
  | .command _ as => ∀ a ∈ as, DurableAction a
  | _ => True

theorem User.Durable.assign {U : User} (h : U.Durable) (key : String) {value : JsVal} (hv : value.Storable) :
    (U.assign key value).Durable := by
  unfold User.assign
  split
  · have hsame := U.assignOwn_same key value
    refine ⟨?_, hsame.fields ▸ h.fields⟩
    by_cases hk : key = "suspended"
    · subst hk
      exact hv
    · rw [hsame.suspended hk]
      exact h.suspended
  · exact ⟨h.suspended, h.fields.set hv⟩

namespace Store
variable {s : Store}

theorem Durable.apply (h : s.Durable) {c : Change} (hc : DurableChange c) : (c.apply s).Durable := by
  cases c with
  | call c => exact h.exec hc
  | dropUser name =>
    have hdrop := EachRecord.dropDomains (EachRecord.detachUser closed_durable h name) name s.domains.keys
    change (s.dropUser name).1.Durable
    unfold Store.dropUser
    split
    · next s' f hrun =>
      rw [hrun] at hdrop
      exact hdrop
    · next s' hrun =>
      rw [hrun] at hdrop
      exact EachRecord.eraseUser hdrop name
  | placeDomain name data =>
    have hempty : (s.setDomain name none).Durable := by
      refine EachRecord.setDomain h fun d he => ?_
      cases he
    have hnew : ∀ o, (Domain.new name o data.toObj).Durable := by
      intro o
      rw [Domain.new_toObj]
      exact hc
    have hadd := EachRecord.addDomain closed_durable (o := data.owner) hempty hnew
    change (s.placeDomain name data).1.Durable
    unfold Store.placeDomain
    split
    · next s' f hrun =>
      rw [hrun] at hadd
      exact hadd
    · next s' res hrun =>
      rw [hrun] at hadd
      refine EachRecord.setDomain hadd fun d he => ?_
      exact h.domains name d (Option.join_eq_some_iff.1 he)
    · next s' hrun =>
      rw [hrun] at hadd
      exact hadd
  | dropDomain owner name => exact EachRecord.modifyUser h fun U hU => closed_durable.userDomains (n := owner) _ hU
  | setUserField name key value => exact EachRecord.modifyUser h fun U hU => User.Durable.assign hU key hc
  | setConfigValue param value => exact ⟨h.plans, h.users, h.domains, JsVal.Storable.set h.config hc⟩
  | checkQuotas disk =>
    have huser : ∀ (max_disk : JsVal) (st : Store × Bool) (i : String), st.1.Durable →
        (checkUserQuota disk max_disk st i).1.1.Durable := by
      intro max_disk st i hst
      unfold checkUserQuota
      split
      · exact hst
      · split
        · exact hst
        · exact hst
        · split
          · exact hst.exec (c := .suspendUser i planDiskSpace) trivial
          · split
            · exact hst.exec (c := .unSuspendUser i (some planDiskSpace)) trivial
            · exact hst
    have hplan : ∀ (st : Store × Bool) (o : String), st.1.Durable → (checkPlanQuota disk st o).1.1.Durable := by
      intro st o hst
      unfold checkPlanQuota
      split
      · exact hst
      · split
        · exact hst
        · dsimp only
          split
          · exact Collect.runAll_keeps (P := fun st : Store × Bool => st.1.Durable) (fun st i _ => huser _ st i) hst
          · exact hst
    change (s.checkQuotas disk).store.Durable
    unfold Store.checkQuotas
    split
    · exact h
    · split
      · exact h
      · next plans _ =>
        have hrun := Collect.runAll_keeps (P := fun st : Store × Bool => st.1.Durable) (l := plans) (s := (s, false))
          (fun st o _ => hplan st o) h
        split
        · next st f hall =>
          rw [hall] at hrun
          exact hrun
        · next st hall =>
          rw [hall] at hrun
          exact hrun

theorem durable_deletions (name : String) (l : List String) : ∀ x ∈ deletions name l s, DurableChange x.1 := by
  induction l generalizing s with
  | nil =>
    intro x hx
    rw [deletions, List.mem_singleton] at hx
    rw [hx]
    trivial
  | cons o os ih =>
    intro x hx
    rw [deletions] at hx
    rcases hdel : s.deletePlan o with ⟨s', r⟩
    rw [hdel] at hx
    cases r with
    | error f =>
      rw [List.mem_singleton.1 hx]
      trivial
    | ok res =>
      rcases List.mem_cons.1 hx with rfl | hx
      · trivial
      · exact ih x hx

theorem durable_changes {c : Call} (hc : DurableCall c) : ∀ x ∈ s.changes c, DurableChange x.1 := by
  have hone : ∀ (c : Call) (b : Bool), DurableCall c → ∀ x ∈ [(Change.call c, b)], DurableChange x.1 := by
    intro c b hc x hx
    rw [List.mem_singleton.1 hx]
    exact hc
  cases c with
  | updateDomain name data =>
    intro x hx
    change x ∈ s.domainUpdates name data at hx
    unfold domainUpdates at hx
    split at hx
    · exact absurd hx List.not_mem_nil
    · split at hx
      · exact absurd hx List.not_mem_nil
      · split at hx
        · split at hx
          · rcases List.mem_cons.1 hx with rfl | hx
            · exact hc
            · rw [List.mem_singleton.1 hx]
              trivial
          · rw [List.mem_singleton.1 hx]
            exact hc
        · exact hone _ _ hc x hx
  | deleteUser name =>
    intro x hx
    change x ∈ s.userDeletions name at hx
    unfold userDeletions at hx
    split at hx
    · exact absurd hx List.not_mem_nil
    · exact durable_deletions name _ x hx
  | addPlan owner name opts => exact hone _ _ hc
  | addUser plan name opts => exact hone _ _ hc
  | addDomain owner name opts => exact hone _ _ hc
  | updateUser name data => exact hone _ _ hc
  | updatePlan name data => exact hone _ _ hc
  | deleteDomain name => exact hone _ _ trivial
  | deletePlan name => exact hone _ _ trivial
  | suspendPlan name o => exact hone _ _ trivial
  | unSuspendPlan name o => exact hone _ _ trivial
  | suspendUser name o => exact hone _ _ trivial
  | unSuspendUser name o => exact hone _ _ trivial

theorem durable_turns {as : List Action} (ha : ∀ a ∈ as, DurableAction a) : ∀ x ∈ s.turns as, DurableChange x.1 := by
  induction as generalizing s with
  | nil => exact fun x hx => absurd hx List.not_mem_nil
  | cons a as ih =>
    obtain ⟨hfirst, hrest⟩ := List.forall_mem_cons.1 ha
    intro x hx
    rw [turns] at hx
    rcases List.mem_append.1 hx with hx | hx
    · cases a with
      | call c => exact durable_changes hfirst x hx
      | suspendUser name o =>
        rw [List.mem_singleton.1 hx]
        trivial
      | unSuspendUser name o =>
        rw [List.mem_singleton.1 hx]
        trivial
      | setUserField name key value =>
        change x ∈ (if name ∈ s.users then [(Change.setUserField name key value, true)] else []) at hx
        split at hx
        · rw [List.mem_singleton.1 hx]
          exact hfirst
        · exact absurd hx List.not_mem_nil
      | setConfigValue param value update =>
        rw [List.mem_singleton.1 hx]
        exact hfirst
    · exact ih hrest x hx

end Store

/-! The same run with histories in the place of the stores. -/

open Copies

/-- A change is an allowed one. -/
def Move.Labelled (ok : Change → Prop) : Move → Prop
  | .turn l => ∀ x ∈ l, ok x.1
  | .pass l => ∀ x ∈ l, ok x.1
  | .command _ l => ∀ x ∈ l, ok x.1
  | _ => True

namespace Parties

/-- The histories of copies and texts. -/
abbrev Histories := Parties (History Change) (History Change)

def reading (s₀ : Store) (h : Histories) : Parties Store (List Char) :=
  { h with system := h.system.reading storeFormat s₀ }

/-- The changes that the steps of a run come to. -/
def moves (p : Parties Store (List Char)) : List PartyStep → List Move
  | [] => []
  | e :: es => p.resolve e :: moves (p.step e) es

variable {s₀ : Store} {h : Histories} {m : Move} {e : PartyStep} {es : List PartyStep}
  {p : Parties Store (List Char)}

theorem lawful (hs₀ : s₀.Durable) : Copies.System.Lawful storeFormat Store.Durable DurableChange s₀ where
  start := hs₀
  act _ _ _ hc hs := hs.apply hc
  dec s hs := by
    change (Store.readDB s.saved).toOption = some s
    rw [Store.read_saved hs.distinct, hs.settle]
    rfl

theorem takeOver_reading (h : Histories) (w : Process) (l : Turn) : (h.reading s₀).takeOver w l = h.takeOver w l := by
  unfold takeOver
  have hfetched : ((h.reading s₀).system.party w).fetched =
      (h.system.party w).fetched.map fun v => storeFormat.enc (replay storeFormat s₀ v) := rfl
  rw [hfetched]
  cases (h.system.party w).fetched with
  | nil => rfl
  | cons v vs => rfl

theorem events_reading (h : Histories) (m : Move) : (h.reading s₀).events m = h.events m := by
  cases m with
  | reload => exact takeOver_reading h .panel []
  | pass l => exact takeOver_reading h .scheduler l
  | command n l => exact takeOver_reading h (.tool n) l
  | _ => rfl

theorem nextTool_reading (h : Histories) : (h.reading s₀).nextTool = h.nextTool := by
  unfold nextTool
  have hwrites : (h.reading s₀).system.writes =
      h.system.writes.map fun w => (w.1, storeFormat.enc (replay storeFormat s₀ w.2)) := rfl
  rw [hwrites]
  rcases h.system.writes with - | ⟨⟨w, v⟩, ws⟩
  · rfl
  · cases w with
    | panel => rfl
    | scheduler => rfl
    | tool n => rfl

theorem record_labelled {w : Process} {l : Turn} {ok : Change → Prop} (hl : ∀ x ∈ l, ok x.1) :
    ∀ e ∈ record w l, e.Labelled ok := by
  intro e he
  obtain ⟨x, hx, rfl⟩ := List.mem_map.1 he
  split
  · exact hl x hx
  · exact hl x hx

theorem events_labelled {α β : Type} (p : Parties α β) {ok : Change → Prop} (hm : m.Labelled ok) :
    ∀ e ∈ p.events m, e.Labelled ok := by
  have hone : ∀ {e : Event Process Change}, e.Labelled ok → ∀ e' ∈ [e], e'.Labelled ok := by
    intro e he e' he'
    rw [List.mem_singleton.1 he']
    exact he
  have htake : ∀ (w : Process) (l : Turn), (∀ x ∈ l, ok x.1) → ∀ e ∈ p.takeOver w l, e.Labelled ok := by
    intro w l hl e he
    unfold takeOver at he
    split at he
    · exact absurd he List.not_mem_nil
    · rcases List.mem_cons.1 he with rfl | he
      · trivial
      · exact record_labelled hl e he
  have hnone : ∀ e ∈ ([] : List (Event Process Change)), e.Labelled ok := fun e he => absurd he List.not_mem_nil
  cases m with
  | turn l => exact record_labelled hm
  | message =>
    change ∀ e ∈ (if p.messages = 0 then [] else [Event.ask Process.panel]), e.Labelled ok
    split
    · exact hnone
    · exact hone (e := .ask .panel) trivial
  | reloadIfNeeded =>
    change ∀ e ∈ (if p.marker then [Event.ask Process.panel] else []), e.Labelled ok
    split
    · exact hone (e := .ask .panel) trivial
    · exact hnone
  | check_quotas => exact hone (e := .ask .scheduler) trivial
  | start n =>
    change ∀ e ∈ (if p.marks n = none then [Event.ask (Process.tool n)] else []), e.Labelled ok
    split
    · exact hone (e := .ask (.tool n)) trivial
    · exact hnone
  | fetch w => exact hone (e := .fetch w) trivial
  | reload => exact htake .panel [] fun x hx => absurd hx List.not_mem_nil
  | pass l => exact htake .scheduler l hm
  | command n l => exact htake (.tool n) l hm
  | apply => exact hone (e := .apply) trivial

theorem resolve_labelled (p : Parties Store (List Char)) (he : DurableStep e) :
    (p.resolve e).Labelled DurableChange := by
  cases e with
  | act as =>
    change ∀ x ∈ ((p.system.party .panel).copy.map fun s => s.turns as).getD [], DurableChange x.1
    cases (p.system.party .panel).copy with
    | none => exact fun x hx => absurd hx List.not_mem_nil
    | some s => exact Store.durable_turns he
  | pass disk =>
    change ∀ x ∈ ((p.given .scheduler).map fun s => [(Change.checkQuotas disk, (s.checkQuotas disk).written)]).getD [],
      DurableChange x.1
    cases p.given .scheduler with
    | none => exact fun x hx => absurd hx List.not_mem_nil
    | some s =>
      intro x hx
      rw [List.mem_singleton.1 hx]
      trivial
  | command n as =>
    change ∀ x ∈ ((p.given (.tool n)).map fun s => s.turns as).getD [], DurableChange x.1
    cases p.given (.tool n) with
    | none => exact fun x hx => absurd hx List.not_mem_nil
    | some s => exact Store.durable_turns he
  | _ => trivial

/-- What the run of the histories has of each step: what they stand for is what the programs have. -/
structure Follows (s₀ : Store) (h : Histories) (p : Parties Store (List Char)) : Prop where
  reading : p = h.reading s₀
  labelled : h.system.Each (System.Labelled DurableChange) (System.Labelled DurableChange)
  tree : ∃ origin, h.system.Tree origin

theorem Follows.move (hs₀ : s₀.Durable) (hf : Follows s₀ h p) (hm : m.Labelled DurableChange) :
    Follows s₀ (h.move history m) (p.move storeFormat m) := by
  obtain ⟨rfl, hlabelled, origin, htree⟩ := hf
  have hevents := events_labelled h hm
  refine ⟨?_, hlabelled.labelled_run hevents, htree.run _⟩
  unfold Parties.move
  rw [events_reading, nextTool_reading]
  have hrun := System.reading_run (lawful hs₀) hlabelled hevents
  have hfetched : ((h.reading s₀).system.party .scheduler).fetched ≠ [] ↔ (h.system.party .scheduler).fetched ≠ [] :=
    not_congr List.map_eq_nil_iff
  unfold Parties.reading
  rw [hrun]
  cases m with
  | pass l =>
    simp only [Parties.mk.injEq, true_and, and_true]
    exact if_congr (and_congr_left' hfetched) rfl rfl
  | _ => rfl

theorem Follows.run (hs₀ : s₀.Durable) (hf : Follows s₀ h p) (hes : ∀ e ∈ es, DurableStep e) :
    Follows s₀ ((moves p es).foldl (Parties.move history) h) (es.foldl step p) := by
  induction es generalizing h p with
  | nil => exact hf
  | cons e es ih =>
    obtain ⟨he, hrest⟩ := List.forall_mem_cons.1 hes
    exact ih (hf.move hs₀ (resolve_labelled p he)) hrest

/-- All that was written before is in the history. -/
def Knows (h : Histories) (v : History Change) : Prop := ∀ e ∈ h.system.saves, e ∈ v

section Informed
variable {s : System Process Change (History Change) (History Change)} {origin : Nat → History Change}

/-- The first write of a turn decides. -/
theorem record_current (hs : s.Tree origin) (w : Process) (l : Turn) :
    Runs.AllOk (System.step history) System.Current s (record w l) ↔
      (l.any Prod.snd = true → ∀ v, (s.party w).copy = some v → ∀ e ∈ s.saves, e ∈ v) := by
  induction l generalizing s origin with
  | nil => exact ⟨fun _ hany => absurd hany Bool.false_ne_true, fun _ => trivial⟩
  | cons x l ih =>
    obtain ⟨c, saved⟩ := x
    cases saved with
    | false =>
      obtain ⟨origin', hs'⟩ := hs.step (.change w c)
      have hany : ((c, false) :: l).any Prod.snd = l.any Prod.snd := by rw [List.any_cons, Bool.false_or]
      rw [hany]
      change (True ∧ Runs.AllOk (System.step history) System.Current (s.step history (.change w c)) (record w l)) ↔ _
      rw [true_and, ih hs']
      refine imp_congr_right fun _ => ?_
      cases hv : (s.party w).copy with
      | none =>
        have hsame : s.step history (.change w c) = s := by
          rw [System.step, System.change, hv]
        rw [hsame, hv]
      | some v =>
        rw [System.step_change hv]
        have hcopy : ((s.setParty w { s.party w with copy := some ((s.made, c) :: v) }).party w).copy =
            some ((s.made, c) :: v) := by rw [System.setParty_self]
        constructor
        · intro hall v' hv' e he
          obtain rfl := Option.some.inj hv'
          rcases List.mem_cons.1 (hall _ hcopy e he) with rfl | hmem
          · exact absurd (hs.saved _ he) (Nat.lt_irrefl _)
          · exact hmem
        · intro hall v' hv' e he
          obtain rfl := Option.some.inj (hcopy.symm.trans hv')
          exact List.mem_cons_of_mem _ (hall v rfl e he)
    | true =>
      obtain ⟨origin', hs'⟩ := hs.step (.save w c)
      change (_ ∧ Runs.AllOk (System.step history) System.Current (s.step history (.save w c)) (record w l)) ↔ _
      rw [ih hs']
      constructor
      · exact fun hall _ => hall.1
      · intro hall
        have hfirst := hall rfl
        refine ⟨hfirst, fun _ v' hv' e he => ?_⟩
        cases hv : (s.party w).copy with
        | none =>
          have hsame : s.step history (.save w c) = s := by
            rw [System.step, System.save, hv]
          rw [hsame, hv] at hv'
          cases hv'
        | some v =>
          rw [System.step_save hv] at hv' he
          have hcopy : ((s.setParty w { s.party w with copy := some ((s.made, c) :: v) }).party w).copy =
              some ((s.made, c) :: v) := by rw [System.setParty_self]
          obtain rfl := Option.some.inj (hcopy.symm.trans hv')
          rcases List.mem_cons.1 he with rfl | he
          · exact List.mem_cons_self
          · exact List.mem_cons_of_mem _ (hfirst v hv e he)

end Informed

/-! A pass that reads the store before a call of the panel and writes it afterwards. -/

def newDomain : Call := .addDomain "bob" "bob.org" .empty

end Parties
end JXPanel

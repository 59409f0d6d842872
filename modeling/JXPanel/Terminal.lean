import JXPanel.Homes
import JXPanel.Sessions

namespace JXPanel
set_option autoImplicit true

inductive TerminalAnswer
  | accessDenied
  | notAllowed
  | reload
  | started (cwd : List Char) (gid uid : Nat)
  | exited
  | written (data : String)
deriving DecidableEq

namespace Sessions

/-- The home folder is computed once and kept. -/
def homeFolder (db : Store) (apps_folder : List Char) (active_user : ActiveUser) : Js (List Char) :=
  match active_user.path with
  | some path => .ok path
  | none =>
    match db.users.get? active_user.username with
    | none => .error .typeError
    | some user => db.getUserPath apps_folder user.plan active_user.username

/-- Whether the plan of a user lets him have a terminal. -/
def sshAllowed (db : Store) (active_user : ActiveUser) : Js Bool :=
  match active_user.plan.bind db.plans.get? with
  | none => .error .typeError
  | some plan => .ok ((prop plan.fields "plan_ssh").truthy && !plan.suspended.truthy)

def createTerminal (s : Sessions) (db : Store) (isPanelUninstalled : Bool) (apps_folder : List Char)
    (sessionId : String) (now : Nat) : Sessions × Js TerminalAnswer :=
  match s.getUser db isPanelUninstalled sessionId now with
  | (s, .error f) => (s, .error f)
  | (s, .ok none) => (s, .ok .accessDenied)
  | (s, .ok (some active_user)) =>
    match sshAllowed db active_user with
    | .error f => (s, .error f)
    | .ok false => (s, .ok .notAllowed)
    | .ok true =>
      if active_user.terminal then
        ({ s with users := s.users.modify sessionId fun u => { u with terminal := false } }, .ok .reload)
      else
        match homeFolder db apps_folder active_user with
        | .error f => (s, .error f)
        | .ok home =>
          ({ s with users := s.users.modify sessionId fun u =>
              { u with terminal := true, path := some home } },
            .ok (.started home active_user.gid active_user.uid))

def sendToTerminal (s : Sessions) (db : Store) (isPanelUninstalled : Bool) (sessionId : String)
    (now : Nat) (g c : String) (enter : Bool) : Sessions × Js TerminalAnswer :=
  match s.getUser db isPanelUninstalled sessionId now with
  | (s, .error f) => (s, .error f)
  | (s, .ok none) => (s, .ok .accessDenied)
  | (s, .ok (some active_user)) =>
    match sshAllowed db active_user with
    | .error f => (s, .error f)
    | .ok false => (s, .ok .notAllowed)
    | .ok true =>
      if g ≠ active_user.groupIdPrefix then (s, .ok .accessDenied)
      else if active_user.terminal then (s, .ok (.written (if enter then "\n" else c)))
      else (s, .ok .exited)

/-- The plan of a session's user, as `getUser` looks it up. -/
def PlanIs (db : Store) (active_user : ActiveUser) (p : String) : Prop :=
  ∃ u, refresh db active_user = .ok u ∧ u.plan = some p

end Sessions

/-- A value that the validator of flags admits and that stands for true. -/
def Enabled (v : JsVal) : Prop :=
  v.toKey.toList.map Char.toLower = "1".toList ∨ v.toKey.toList.map Char.toLower = "true".toList

instance (v : JsVal) : Decidable (Enabled v) := inferInstanceAs (Decidable (_ ∨ _))

def Store.AtOrAbove (db : Store) : String → String → Prop :=
  Relation.ReflTransGen fun p q => db.parentUp p = some q

/-- Terminals are enabled on a plan and on every plan above it below the root, and the plan is not
suspended. -/
def Store.SshInherited (db : Store) (p : String) : Prop :=
  (∀ q Q, db.AtOrAbove p q → q ≠ unlimitedPlanName → db.plans.get? q = some Q →
      Enabled (prop Q.fields "plan_ssh")) ∧
    ∀ P, db.plans.get? p = some P → P.suspended.truthy = false

/-- Neither request of a session gets through unless its plan has inherited the terminal. -/
def Sessions.TerminalSafe (s : Sessions) (db : Store) (isPanelUninstalled : Bool)
    (apps_folder : List Char) (sessionId : String) (now : Nat) : Prop :=
  ∀ a p, s.users.get? sessionId = some a → Sessions.PlanIs db a p →
    (∀ cwd gid uid, (s.createTerminal db isPanelUninstalled apps_folder sessionId now).2 =
        .ok (.started cwd gid uid) → db.SshInherited p) ∧
      ∀ g c enter data, (s.sendToTerminal db isPanelUninstalled sessionId now g c enter).2 =
        .ok (.written data) → db.SshInherited p

/-- If the plan's own flag is any true value and the plan is not suspended, then the flag is enabled
on the plan and on every plan above it. -/
def Store.SshSettled (db : Store) (p : String) : Prop :=
  ∀ P, db.plans.get? p = some P → (prop P.fields "plan_ssh").truthy = true → P.suspended.truthy = false →
    ∀ q Q, db.AtOrAbove p q → q ≠ unlimitedPlanName → db.plans.get? q = some Q →
      Enabled (prop Q.fields "plan_ssh")

namespace Sessions
variable {s : Sessions} {db : Store} {isPanelUninstalled : Bool} {apps_folder : List Char}
  {sessionId p : String} {a u : ActiveUser} {now : Nat}

theorem refresh_kept (h : refresh db a = .ok u) : u.username = a.username ∧ u.terminal = a.terminal ∧
    u.groupIdPrefix = a.groupIdPrefix ∧ u.path = a.path := by
  unfold refresh at h
  cases huser : db.users.get? a.username with
  | none =>
    rw [huser] at h
    cases h
    exact ⟨rfl, rfl, rfl, rfl⟩
  | some user =>
    rw [huser] at h
    dsimp only at h
    cases hplan : db.plans.get? user.plan with
    | none =>
      rw [hplan] at h
      cases h
    | some P =>
      rw [hplan] at h
      cases h
      exact ⟨rfl, rfl, rfl, rfl⟩

theorem homeFolder_kept (h : refresh db a = .ok u) : homeFolder db apps_folder u = homeFolder db apps_folder a := by
  obtain ⟨hname, -, -, hpath⟩ := refresh_kept h
  rw [homeFolder, homeFolder, hname, hpath]

theorem getUser_ok (now : Nat) (ha : s.users.get? sessionId = some a) (h : refresh db a = .ok u) :
    ∃ s', s.getUser db false sessionId now = (s', .ok (some u)) := by
  rw [getUser, ha]
  simp only [Bool.false_eq_true, if_false, h]
  exact ⟨_, rfl⟩

theorem sshAllowed_eq (hp : u.plan = some p) {P : Plan} (hP : db.plans.get? p = some P) :
    sshAllowed db u = .ok ((prop P.fields "plan_ssh").truthy && !P.suspended.truthy) := by
  rw [sshAllowed, hp, Option.bind_some, hP]

theorem sshAllowed_cases (hp : u.plan = some p) {b : Bool} (h : sshAllowed db u = .ok b) :
    ∃ P, db.plans.get? p = some P ∧ b = ((prop P.fields "plan_ssh").truthy && !P.suspended.truthy) := by
  rw [sshAllowed, hp, Option.bind_some] at h
  cases hP : db.plans.get? p with
  | none =>
    rw [hP] at h
    cases h
  | some P =>
    rw [hP] at h
    exact ⟨P, rfl, (Except.ok.inj h).symm⟩

/-- What is allowed on a plan whose flags are settled is inherited. -/
theorem inherited_of_allowed (hset : db.SshSettled p) (hp : u.plan = some p)
    (h : sshAllowed db u = .ok true) : db.SshInherited p := by
  obtain ⟨P, hP, hb⟩ := sshAllowed_cases hp h
  obtain ⟨hssh, hsus⟩ := Bool.and_eq_true_iff.1 hb.symm
  have hsuspended : P.suspended.truthy = false := by
    rwa [Bool.not_eq_true'] at hsus
  refine ⟨hset P hP hssh hsuspended, fun P' hP' => ?_⟩
  rw [hP] at hP'
  rw [← Option.some.inj hP']
  exact hsuspended

/-- A shell is started just for an allowed user without one. -/
theorem createTerminal_started_iff (now : Nat) (ha : s.users.get? sessionId = some a) (h : refresh db a = .ok u) :
    (∃ cwd gid uid, (s.createTerminal db isPanelUninstalled apps_folder sessionId now).2 =
      .ok (.started cwd gid uid)) ↔
      isPanelUninstalled = false ∧ sshAllowed db u = .ok true ∧ a.terminal = false ∧
        ∃ home, homeFolder db apps_folder a = .ok home := by
  cases isPanelUninstalled with
  | true =>
    constructor
    · rintro ⟨cwd, gid, uid, hstart⟩
      rw [createTerminal, getUser, ha] at hstart
      cases hstart
    · rintro ⟨hno, -⟩
      cases hno
  | false =>
    obtain ⟨s', hget⟩ := getUser_ok now ha h
    rw [createTerminal, hget]
    dsimp only
    rw [← (refresh_kept h).2.1, ← homeFolder_kept h]
    cases hallowed : sshAllowed db u with
    | error f =>
      constructor
      · rintro ⟨cwd, gid, uid, hstart⟩
        cases hstart
      · rintro ⟨-, hno, -⟩
        cases hno
    | ok b =>
      cases b with
      | false =>
        constructor
        · rintro ⟨cwd, gid, uid, hstart⟩
          cases hstart
        · rintro ⟨-, hno, -⟩
          cases hno
      | true =>
        cases hterminal : u.terminal with
        | true =>
          constructor
          · rintro ⟨cwd, gid, uid, hstart⟩
            cases hstart
          · rintro ⟨-, -, hno, -⟩
            cases hno
        | false =>
          cases hhome : homeFolder db apps_folder u with
          | error f =>
            constructor
            · rintro ⟨cwd, gid, uid, hstart⟩
              cases hstart
            · rintro ⟨-, -, -, home, hno⟩
              cases hno
          | ok home =>
            constructor
            · rintro -
              exact ⟨rfl, rfl, rfl, home, rfl⟩
            · rintro -
              exact ⟨home, u.gid, u.uid, rfl⟩

/-- Input is written just to the terminal of an allowed user who names his own. -/
theorem sendToTerminal_written_iff (now : Nat) (g c : String) (enter : Bool)
    (ha : s.users.get? sessionId = some a) (h : refresh db a = .ok u) :
    (∃ data, (s.sendToTerminal db isPanelUninstalled sessionId now g c enter).2 = .ok (.written data)) ↔
      isPanelUninstalled = false ∧ sshAllowed db u = .ok true ∧ g = a.groupIdPrefix ∧ a.terminal = true := by
  cases isPanelUninstalled with
  | true =>
    constructor
    · rintro ⟨data, hsent⟩
      rw [sendToTerminal, getUser, ha] at hsent
      cases hsent
    · rintro ⟨hno, -⟩
      cases hno
  | false =>
    obtain ⟨s', hget⟩ := getUser_ok now ha h
    rw [sendToTerminal, hget]
    dsimp only
    rw [← (refresh_kept h).2.1, ← (refresh_kept h).2.2.1]
    cases hallowed : sshAllowed db u with
    | error f =>
      constructor
      · rintro ⟨data, hsent⟩
        cases hsent
      · rintro ⟨-, hno, -⟩
        cases hno
    | ok b =>
      cases b with
      | false =>
        constructor
        · rintro ⟨data, hsent⟩
          cases hsent
        · rintro ⟨-, hno, -⟩
          cases hno
      | true =>
        dsimp only
        by_cases hg : g = u.groupIdPrefix
        · rw [if_neg (not_not.2 hg)]
          cases hterminal : u.terminal with
          | false =>
            constructor
            · rintro ⟨data, hsent⟩
              cases hsent
            · rintro ⟨-, -, -, hno⟩
              cases hno
          | true =>
            constructor
            · rintro -
              exact ⟨rfl, rfl, hg, rfl⟩
            · rintro -
              exact ⟨_, rfl⟩
        · rw [if_pos hg]
          constructor
          · rintro ⟨data, hsent⟩
            cases hsent
          · rintro ⟨-, -, hno, -⟩
            exact absurd hno hg

/-- Terminals are inherited just where the flag of a plan that would let a session through is as
enabled as those above it. -/
theorem terminal_safe_iff (s : Sessions) (db : Store) (isPanelUninstalled : Bool)
    (apps_folder : List Char) (sessionId : String) (now : Nat) :
    s.TerminalSafe db isPanelUninstalled apps_folder sessionId now ↔
      ∀ a p, s.users.get? sessionId = some a → PlanIs db a p → isPanelUninstalled = false →
        (a.terminal = true ∨ ∃ home, homeFolder db apps_folder a = .ok home) → db.SshSettled p := by
  constructor
  · rintro h a p ha ⟨u, hu, hp⟩ hinstalled hopen P hP hssh hsus
    have hallowed : sshAllowed db u = .ok true := by
      rw [sshAllowed_eq hp hP, hssh, hsus]
      rfl
    obtain ⟨hstarted, hwritten⟩ := h a p ha ⟨u, hu, hp⟩
    cases hterminal : a.terminal with
    | true =>
      obtain ⟨data, hsent⟩ := (sendToTerminal_written_iff now a.groupIdPrefix "" false ha hu).2
        ⟨hinstalled, hallowed, rfl, hterminal⟩
      exact (hwritten a.groupIdPrefix "" false data hsent).1
    | false =>
      obtain ⟨home, hhome⟩ := hopen.resolve_left (by rw [hterminal]; exact Bool.false_ne_true)
      obtain ⟨cwd, gid, uid, hstart⟩ := (createTerminal_started_iff now ha hu).2
        ⟨hinstalled, hallowed, hterminal, home, hhome⟩
      exact (hstarted cwd gid uid hstart).1
  · rintro h a p ha ⟨u, hu, hp⟩
    constructor
    · intro cwd gid uid hstart
      obtain ⟨hinstalled, hallowed, -, hhome⟩ :=
        (createTerminal_started_iff now ha hu).1 ⟨cwd, gid, uid, hstart⟩
      exact inherited_of_allowed (h a p ha ⟨u, hu, hp⟩ hinstalled (.inr hhome)) hp hallowed
    · intro g c enter data hsent
      obtain ⟨hinstalled, hallowed, -, hterminal⟩ :=
        (sendToTerminal_written_iff now g c enter ha hu).1 ⟨data, hsent⟩
      exact inherited_of_allowed (h a p ha ⟨u, hu, hp⟩ hinstalled (.inl hterminal)) hp hallowed

def terminalCalls : List Call :=
  [.addUser unlimitedPlanName "ann" .empty,
    .addPlan (some "ann") "gold" ((planOpts 5 5).set "plan_ssh" (.bool false)),
    .addUser "gold" "bob" .empty,
    .addPlan (some "bob") "silver" ((planOpts 2 2).set "plan_ssh" (.bool true)),
    .addUser "silver" "cat" .empty]

/-- A user of the lower plan gets a shell. -/
theorem terminal_not_inherited :
    ¬∀ (calls : List Call) (s : Sessions), Runs.Reached after empty (fun _ _ => True) s →
      ∀ sessionId now, s.TerminalSafe (installed.run calls) false "/srv".toList sessionId now := by
  intro h
  have hrun : Runs.Reached after empty (fun _ _ => True)
      ([.login "s1" "gr1" "cat" (some (1000, 1000)) 5].foldl after empty) := by
    apply Runs.Reached.run .start
    exact ⟨trivial, trivial⟩
  have hstart : (createTerminal ([SessionEvent.login "s1" "gr1" "cat" (some (1000, 1000)) 5].foldl after empty)
      (installed.run terminalCalls) false "/srv".toList "s1" 6).2 =
        .ok (.started "/srv/VW5saW1pdGVk/Z29sZA/c2lsdmVy/cat".toList 1000 1000) := by
    decide +kernel
  obtain ⟨hinherited, -⟩ := (h terminalCalls _ hrun "s1" 6 _ "silver" rfl ⟨_, rfl, rfl⟩).1 _ _ _ hstart
  obtain ⟨Q, hQ⟩ := Dict.mem_iff.1 (show "gold" ∈ (installed.run terminalCalls).plans by decide)
  have hdisabled : ∀ e ∈ (installed.run terminalCalls).plans.entries, e.1 = "gold" →
      ¬Enabled (prop e.2.fields "plan_ssh") := by
    decide +kernel
  have habove : (installed.run terminalCalls).AtOrAbove "silver" "gold" := .single rfl
  exact hdisabled ("gold", Q) (Dict.get?_eq_some.1 hQ) rfl (hinherited "gold" Q habove (by decide) hQ)

end Sessions
end JXPanel

import JXPanel.AllowList
import JXPanel.Consistency

namespace JXPanel
set_option autoImplicit true

namespace Store
variable {s : Store} {name owner parent : String} {U : User}

/-- No record has the name of a user or mentions it. -/
structure UserUnmentioned (s : Store) (name : String) : Prop where
  user : name ∉ s.users
  seats : ∀ p P, s.plans.get? p = some P → name ∉ P.users
  owners : ∀ d D, s.getDomain? d = some D → D.owner ≠ name
  filled : ∀ d, s.domains.get? d ≠ some none

/-- No record has the name of a domain, and it is listed only where taking it from the list of the
user whom the owner's record names leaves it in the owner's own. -/
structure DomainUnmentioned (s : Store) (owner name : String) : Prop where
  domain : name ∉ s.domains
  owned : ∀ U, s.users.get? owner = some U → (name ∈ U.domains ↔ U.name ≠ owner)
  listed : ∀ U V, s.users.get? owner = some U → s.users.get? U.name = some V → name ∉ V.domains

theorem UserUnmentioned.of_integrity (h : Integrity s) (hname : name ∉ s.users) : s.UserUnmentioned name := by
  refine ⟨hname, ?_, ?_, h.full⟩
  · intro p P hP hm
    exact hname (planOf_isSome.1 (Option.isSome_iff_exists.2 ⟨p, (h.seat name p).2 (mem_seats.2 ⟨P, hP, hm⟩)⟩))
  · intro d D hD he
    have hown : s.domainOwner d = some name := domainOwner_eq.2 ⟨D, hD, he⟩
    obtain ⟨V, hV, -⟩ := mem_ownDomains.1 ((h.domain d name).1 hown)
    exact hname (Dict.mem_of_get? hV)

theorem dropDomains_ok {t t' : Store} {l : List String}
    (h : Collect.runAll (dropDomainOf name) l t = (t', .ok ())) {d : String} {o : Option Domain}
    (hd : t'.domains.get? d = some o) :
    t.domains.get? d = some o ∧ (d ∈ l → ∃ D, o = some D ∧ D.owner ≠ name) := by
  induction l generalizing t with
  | nil =>
    cases h
    exact ⟨hd, fun hm => absurd hm List.not_mem_nil⟩
  | cons x l ih =>
    rw [Collect.runAll, dropDomainOf] at h
    cases hx : t.domains.get? x with
    | none =>
      rw [hx] at h
      obtain ⟨hold, hl⟩ := ih h
      refine ⟨hold, fun hm => (List.mem_cons.1 hm).elim (fun he => ?_) hl⟩
      rw [he, hx] at hold
      cases hold
    | some o' =>
      rw [hx] at h
      cases o' with
      | none => cases h
      | some D =>
        dsimp only at h
        by_cases hD : D.owner = name
        · rw [if_pos hD] at h
          obtain ⟨hold, hl⟩ := ih h
          have hne : d ≠ x := by
            rintro rfl
            rw [eraseDomain, Dict.get?_erase_self] at hold
            cases hold
          rw [eraseDomain, Dict.get?_erase_ne _ hne] at hold
          exact ⟨hold, fun hm => hl ((List.mem_cons.1 hm).resolve_left hne)⟩
        · rw [if_neg hD] at h
          obtain ⟨hold, hl⟩ := ih h
          refine ⟨hold, fun hm => (List.mem_cons.1 hm).elim (fun he => ?_) hl⟩
          rw [he, hx] at hold
          cases hold
          exact ⟨D, rfl, hD⟩

theorem runAll_dropDomainOf_idle {t : Store} (hfilled : ∀ d, t.domains.get? d ≠ some none)
    (howners : ∀ d D, t.getDomain? d = some D → D.owner ≠ name) (l : List String) :
    Collect.runAll (dropDomainOf name) l t = (t, .ok ()) := by
  induction l with
  | nil => rfl
  | cons d l ih =>
    have hstep : dropDomainOf name t d = (t, .ok ()) := by
      rw [dropDomainOf]
      cases hd : t.domains.get? d with
      | none => rfl
      | some o =>
        cases o with
        | none => exact absurd hd (hfilled d)
        | some D =>
          have hD : t.getDomain? d = some D := by
            rw [getDomain?, hd]
            rfl
          dsimp only
          rw [if_neg (howners d D hD)]
    rw [Collect.runAll, hstep]
    exact ih

/-- A user without plans stays with all users, or goes and is mentioned nowhere any more. -/
theorem deleteUser_leaf {t : Store} {r} (hU : t.users.get? name = some U) (hplans : U.subPlans.keys = [])
    (h : t.deleteUser name = (s, r)) :
    (s.users = t.users ∧ ∃ f, r = .error f) ∨ (s.UserUnmentioned name ∧ r = .ok ⟨[], [name], []⟩) := by
  rw [deleteUser, hU] at h
  dsimp only at h
  rw [hplans, deleteSubPlans] at h
  dsimp only at h
  have husers := dropDomains_users name t.domains.keys (t.detachUser name)
  have hplans' := dropDomains_plans name t.domains.keys (t.detachUser name)
  rcases hdrop : Collect.runAll (dropDomainOf name) t.domains.keys (t.detachUser name) with ⟨s₂, f | ⟨⟩⟩
  · rw [hdrop] at h husers
    cases h
    exact .inl ⟨husers, f, rfl⟩
  · rw [hdrop] at h hplans'
    cases h
    refine .inr ⟨⟨fun hm => (Dict.mem_erase.1 hm).1 rfl, ?_, ?_, ?_⟩, rfl⟩
    · intro p P hP hm
      change s₂.plans.get? p = some P at hP
      rw [hplans', detachUser, Dict.get?_mapVals] at hP
      obtain ⟨Q, -, rfl⟩ := Option.map_eq_some_iff.1 hP
      exact (Dict.mem_erase.1 hm).1 rfl
    · intro d D hD
      have hd : s₂.domains.get? d = some (some D) := Option.join_eq_some_iff.1 hD
      obtain ⟨hold, hl⟩ := dropDomains_ok hdrop hd
      obtain ⟨D', he, hne⟩ := hl (Dict.mem_of_get? hold)
      cases he
      exact hne
    · intro d hd
      obtain ⟨hold, hl⟩ := dropDomains_ok hdrop hd
      obtain ⟨D', he, -⟩ := hl (Dict.mem_of_get? hold)
      cases he

/-- Deleting a user without plans right behind adding him leaves the store as it was. -/
theorem deleteUser_attachUser (hname : s.UserUnmentioned name) (hplans : U.subPlans.keys = []) :
    (s.attachUser parent name U).deleteUser name = (s, .ok ⟨[], [name], []⟩) := by
  have hU : (s.attachUser parent name U).users.get? name = some U := Dict.get?_set_self _ _ _
  have hfilled : ∀ d, ((s.attachUser parent name U).detachUser name).domains.get? d ≠ some none := hname.filled
  have howners : ∀ d D, ((s.attachUser parent name U).detachUser name).getDomain? d = some D → D.owner ≠ name :=
    hname.owners
  have hdrop := runAll_dropDomainOf_idle hfilled howners (s.attachUser parent name U).domains.keys
  have hplans' : (s.plans.modify parent fun p => { p with users := p.users.set name () }).mapVals
      (fun _ p => { p with users := p.users.erase name }) = s.plans := by
    apply Dict.mapVals_modify_eq_self
    intro x P hP
    have hout := hname.seats x P hP
    split
    · rw [Dict.erase_set_of_absent hout]
    · rw [Dict.erase_of_not_mem hout]
  rw [deleteUser, hU]
  dsimp only
  rw [hplans, deleteSubPlans]
  dsimp only
  rw [hdrop]
  have hback : ((s.attachUser parent name U).detachUser name).eraseUser name = s := by
    change Store.mk _ _ _ _ = _
    cases s
    congr
    · exact Dict.erase_set_of_absent hname.user U
  exact congrArg (fun t => (t, Except.ok _)) hback

/-- The store behind the deletion of a domain that has just been added. -/
theorem deleteDomain_attachDomain {owner : String} (D : Domain) :
    ((s.attachDomain owner name D).deleteDomain name).1 =
      { s with
        domains := (s.domains.set name (some D)).erase name
        users := (s.users.modify owner fun u => { u with domains := u.domains.set name () }).modify D.owner
          fun u => { u with domains := u.domains.erase name } } := by
  have hD : (s.attachDomain owner name D).getDomain? name = some D := by
    rw [getDomain?, attachDomain, setDomain, Dict.get?_set_self]
    rfl
  rw [deleteDomain, hD]
  dsimp only
  cases hU : (s.attachDomain owner name D).users.get? D.owner with
  | none =>
    have hidle := Dict.modify_eq_self (d := (s.attachDomain owner name D).users) (k := D.owner)
      (f := fun u => { u with domains := u.domains.erase name }) fun V hV => by
        rw [hU] at hV
        cases hV
    exact congrArg (fun users => Store.mk _ users _ _) hidle.symm
  | some U => rfl

/-- Deleting a domain right behind adding it leaves the store as it was only under these conditions. -/
theorem deleteDomain_attachDomain_iff {owner : String} {D : Domain} {U : User} (hU : s.users.get? owner = some U)
    (hD : D.owner = U.name) :
    ((s.attachDomain owner name D).deleteDomain name).1 = s ↔ s.DomainUnmentioned owner name := by
  rw [deleteDomain_attachDomain, hD]
  constructor
  · intro h
    have hdomains : (s.domains.set name (some D)).erase name = s.domains := congrArg Store.domains h
    have husers := congrArg Store.users h
    dsimp only at husers
    have hgone : ∀ V, s.users.get? U.name = some V → name ∉ V.domains := by
      intro V hV hm
      rw [← husers, Dict.get?_modify_self] at hV
      obtain ⟨W, -, rfl⟩ := Option.map_eq_some_iff.1 hV
      exact (Dict.mem_erase.1 hm).1 rfl
    refine ⟨?_, ?_, ?_⟩
    · rw [← hdomains]
      exact fun hm => (Dict.mem_erase.1 hm).1 rfl
    · intro V hV
      rw [hU] at hV
      cases hV
      constructor
      · intro hm he
        exact hgone U (he ▸ hU) hm
      · intro hne
        have hV : s.users.get? owner = some { U with domains := U.domains.set name () } := by
          rw [← husers, Dict.get?_modify_ne _ _ (Ne.symm hne), Dict.get?_modify_self, hU]
          rfl
        rw [hU] at hV
        rw [Option.some.inj hV]
        exact Dict.mem_set.2 (.inl rfl)
    · intro V W hV hW
      rw [hU] at hV
      cases hV
      exact hgone W hW
  · intro h
    have husers : (s.users.modify owner fun u => { u with domains := u.domains.set name () }).modify U.name
        (fun u => { u with domains := u.domains.erase name }) = s.users := by
      apply Dict.mapVals_modify_eq_self
      intro x V hV
      by_cases hx : x = owner
      · rw [if_pos hx]
        rw [hx, hU] at hV
        cases hV
        by_cases he : x = U.name
        · rw [if_pos he]
          have hout : name ∉ U.domains := h.listed U U hU (by rw [← he, hx, hU])
          dsimp only
          rw [Dict.erase_set_of_absent hout]
        · rw [if_neg he]
          have hin : name ∈ U.domains := (h.owned U hU).2 fun heq => he (hx.trans heq.symm)
          obtain ⟨v, hv⟩ := Dict.mem_iff.1 hin
          rw [Dict.set_get? hv]
      · rw [if_neg hx]
        split
        · next he =>
          dsimp only
          rw [Dict.erase_of_not_mem (h.listed U V hU (he ▸ hV))]
        · rfl
    rw [husers, Dict.erase_set_of_absent h.domain]

end Store

namespace Panel
variable {p q : Panel} {h : Helpers} {c : Submission} {username : String}

/-- A new record is gone again from the store when its form sends an error. -/
def RollsBack (p : Panel) (h : Helpers) (username : String) (c : Submission) : Prop :=
  (p.submit h username none c).2 ≠ .ok none → (p.submit h username none c).1.db = p.db

def accountSteps (h : Helpers) (p : Panel) (c : Submission) : Outcome :=
  (p.makeAccount h c).andThen fun p => p.finishUser h c.name c.json

/-- The exits that do not take the user away: the home of an account that was there before is not
moved, or his access to FTP is not set. -/
def UserStays (h : Helpers) (p : Panel) (c : Submission) : Prop :=
  (c.person_username_ok.truthy = true ∧ ∃ err, h.moveUserHome = .ok (some err)) ∨
    ∃ q err, p.makeAccount h c = (q, .ok none) ∧ (q.setFtpAccess h c.name c.json).2 = .ok (some err) ∧
      h.events = .ok ()

def UserTakenBack (h : Helpers) (p : Panel) (c : Submission) : Prop :=
  ∀ q, p.withStore (p.db.addUser (prop c.json "plan").toKey c.name c.json) = (q, .ok none) →
    (q.accountSteps h c).2 ≠ .ok none → ¬q.UserStays h c ∧ p.db.UserUnmentioned c.name

/-- An accepted domain whose directory is not made is taken away unless that throws. -/
def DomainTakenBack (h : Helpers) (p : Panel) (username : String) (c : Submission) : Prop :=
  (p.db.sessionAddDomain username c.json (.ok none)).2 = .ok none → h.appCreateHomeDir ≠ .ok none →
    (∃ err, h.appCreateHomeDir = .ok (some err)) ∧ p.db.DomainUnmentioned username c.name

def TakenBack (h : Helpers) (p : Panel) (username : String) (c : Submission) : Prop :=
  match c.form with
  | .addUser => p.UserTakenBack h c
  | .addDomain => p.DomainTakenBack h username c
  | .addPlan => True

theorem setFtpAccess_db {U : User} {name : String} (hU : q.db.users.get? name = some U) (json : Obj) :
    (q.setFtpAccess h name json).1.db = q.db ∨
      ∃ b, (q.setFtpAccess h name json).1.db = q.db.setUser name (U.setFtpAccess b) := by
  unfold setFtpAccess
  split
  · unfold Ftp.allowUser
    rw [hU]
    dsimp only
    rcases q.ftp.readConfigOnce q.db with ⟨f, e | (_ | err)⟩
    · exact .inl rfl
    · dsimp only
      split
      · exact .inl rfl
      · exact .inr ⟨true, rfl⟩
    · exact .inl rfl
  · unfold Ftp.denyUser
    rw [hU]
    dsimp only
    rcases q.ftp.readConfigOnce q.db with ⟨f, e | (_ | err)⟩
    · exact .inl rfl
    · dsimp only
      rw [Store.updateUser_self]
      split
      · exact .inr ⟨false, rfl⟩
      · exact .inl rfl
    · exact .inl rfl

/-- The store is the one from before with the new user, who has no plans. -/
def Seated (s : Store) (parent name : String) (q : Panel) : Prop :=
  ∃ U : User, U.subPlans.keys = [] ∧ q.db = s.attachUser parent name U

section Accounts
variable {s : Store} {parent name : String} {json : Obj}

theorem Seated.get? (hq : Seated s parent name q) : ∃ U, q.db.users.get? name = some U ∧ U.subPlans.keys = [] := by
  obtain ⟨U, hplans, hdb⟩ := hq
  refine ⟨U, ?_, hplans⟩
  rw [hdb]
  exact Dict.get?_set_self _ _ _

theorem Seated.same (hp : Seated s parent name p) (hq : SameAccess p q) : Seated s parent name q := by
  obtain ⟨U, hplans, hdb⟩ := hp
  exact ⟨U, hplans, hq.1.trans hdb⟩

/-- The user that was added is not in the store from before. -/
theorem Seated.ne (hq : Seated s parent name q) (hname : name ∉ s.users) : q.db ≠ s := by
  obtain ⟨U, hU, -⟩ := hq.get?
  intro he
  rw [he] at hU
  exact hname (Dict.mem_of_get? hU)

theorem Seated.setUser (hq : Seated s parent name q) {U : User} (hU : q.db.users.get? name = some U) (b : Bool)
    {p : Panel} (hp : p.db = q.db.setUser name (U.setFtpAccess b)) : Seated s parent name p := by
  obtain ⟨V, hplans, hdb⟩ := hq
  have hV : q.db.users.get? name = some V := by
    rw [hdb]
    exact Dict.get?_set_self _ _ _
  rw [hU] at hV
  cases hV
  refine ⟨U.setFtpAccess b, ?_, ?_⟩
  · have hkey : "ftp_access" ∉ userKeys := by decide
    rw [User.setFtpAccess, User.assign, dif_neg hkey]
    exact hplans
  · rw [hp, hdb, Store.attachUser, Store.attachUser, Store.setUser, Store.setUser]
    dsimp only
    rw [Dict.set_set]
    rfl

/-- Whatever becomes of the access to FTP, the user is there. -/
theorem Seated.setFtpAccess (hq : Seated s parent name q) (json : Obj) :
    Seated s parent name (q.setFtpAccess h name json).1 := by
  obtain ⟨U, hU, -⟩ := hq.get?
  rcases setFtpAccess_db (h := h) hU json with he | ⟨b, he⟩
  · obtain ⟨V, hplans, hdb⟩ := hq
    exact ⟨V, hplans, he.trans hdb⟩
  · exact hq.setUser hU b he

/-- Taking the user away brings the old store back only if that had no mention of him. -/
theorem Seated.deleteUser (hq : Seated s parent name q) (hname : name ∉ s.users) :
    (q.db.deleteUser name).1 = s ↔ s.UserUnmentioned name := by
  obtain ⟨U, hplans, hdb⟩ := hq
  have hU : q.db.users.get? name = some U := by
    rw [hdb]
    exact Dict.get?_set_self _ _ _
  constructor
  · intro he
    rcases hdel : q.db.deleteUser name with ⟨s', r⟩
    rw [hdel] at he
    cases he
    rcases Store.deleteUser_leaf hU hplans hdel with ⟨husers, -⟩ | ⟨hnone, -⟩
    · rw [husers] at hname
      exact absurd (Dict.mem_of_get? hU) hname
    · exact hnone
  · intro hnone
    rw [hdb, Store.deleteUser_attachUser hnone hplans]

/-- Where taking the user away throws, the catch does not bring the old store back either. -/
theorem Seated.torn (hp : Seated s parent name p) (hname : name ∉ s.users) {f : Fault}
    (hq : q.db = (p.db.deleteUser name).1) (hdel : (p.db.deleteUser name).2 = .error f) :
    name ∈ q.db.users ∧ (q.db.deleteUser name).1 ≠ s ∧ ¬s.UserUnmentioned name := by
  have hno : ¬s.UserUnmentioned name := by
    intro hnone
    obtain ⟨V, hplans, hdb⟩ := hp
    rw [hdb, Store.deleteUser_attachUser hnone hplans] at hdel
    cases hdel
  obtain ⟨U, hU, hplans⟩ := hp.get?
  rcases hrun : p.db.deleteUser name with ⟨s₁, r₁⟩
  rw [hrun] at hq hdel
  rcases Store.deleteUser_leaf hU hplans hrun with ⟨husers, -⟩ | ⟨-, rfl⟩
  · have hU₁ : q.db.users.get? name = some U := by
      rw [hq]
      dsimp only
      rw [husers, hU]
    refine ⟨Dict.mem_of_get? hU₁, fun hback => ?_, hno⟩
    rcases hagain : q.db.deleteUser name with ⟨s₂, r₂⟩
    rw [hagain] at hback
    cases hback
    rcases Store.deleteUser_leaf hU₁ hplans hagain with ⟨husers₂, -⟩ | ⟨hnone, -⟩
    · rw [husers₂] at hname
      exact hname (Dict.mem_of_get? hU₁)
    · exact hno hnone
  · cases hdel

end Accounts

/-- What becomes of a new user behind the store: he stays, is taken away, or what is thrown, also in
taking him away, goes to the catch. -/
inductive AccountFate (h : Helpers) (p : Panel) (c : Submission) (s : Store) (parent : String) : Outcome → Prop
  | made {q : Panel} (hq : Seated s parent c.name q) : AccountFate h p c s parent (q, .ok none)
  | thrown {q : Panel} {f : Fault} (hq : Seated s parent c.name q) (hstays : ¬p.UserStays h c) :
    AccountFate h p c s parent (q, .error f)
  | stays {q : Panel} {err : String} (hq : Seated s parent c.name q) (hstays : p.UserStays h c) :
    AccountFate h p c s parent (q, .ok (some err))
  | taken {q : Panel} {err : String} (hq : q.db = (p.db.deleteUser c.name).1) (hstays : ¬p.UserStays h c) :
    AccountFate h p c s parent (q, .ok (some err))
  | torn {q : Panel} {f : Fault} (hq : q.db = (p.db.deleteUser c.name).1)
    (hdel : (p.db.deleteUser c.name).2 = .error f) (hstays : ¬p.UserStays h c) :
    AccountFate h p c s parent (q, .error f)

section Accounts
variable {s : Store} {parent name : String} {json : Obj}

theorem withHome_snd (plan_name user_name : String) (place : List Char → Dict String (List Char)) :
    (p.withHome h plan_name user_name place).2 = .ok none ∨
      ∃ f, (p.withHome h plan_name user_name place).2 = .error f := by
  unfold withHome
  split
  · exact .inr ⟨_, rfl⟩
  · exact .inl rfl

/-- An error of the steps that move a home is that of moving it. -/
theorem moveUserHome_error (user_name new_plan_name err : String) :
    (p.moveUserHome h user_name new_plan_name).2 = .ok (some err) ↔ h.moveUserHome = .ok (some err) := by
  unfold Panel.moveUserHome outcome
  rcases hmove : h.moveUserHome with f | (_ | err')
  · exact Iff.rfl
  · have hno : (Except.ok none : Js (Option String)) ≠ .ok (some err) := fun he => by cases he
    refine iff_of_false ?_ hno
    dsimp only [Outcome.andThen]
    have hplace := withHome_snd (h := h) (p := p) new_plan_name user_name (moveHome p.homes user_name)
    rcases hp : p.withHome h new_plan_name user_name (moveHome p.homes user_name) with ⟨p', r⟩
    rw [hp] at hplace
    rcases hplace with he | ⟨f, he⟩
    · cases he
      dsimp only [clearUserByName]
      rcases p'.sessions.clearUserByName user_name with ⟨sessions, f | ⟨⟩⟩
      · exact fun he => by cases he
      · exact hno
    · cases he
      exact fun he => by cases he
  · exact Iff.rfl

theorem UserStays.of_move (hok : c.person_username_ok.truthy = true) {q : Panel} {r : Js (Option String)}
    (hm : p.moveUserHome h c.name (prop c.json "plan").toKey = (q, r)) (hr : ∀ p' : Panel, (q, r) ≠ (p', .ok none)) :
    p.UserStays h c ↔ ∃ err, r = .ok (some err) := by
  have herr := moveUserHome_error (p := p) (h := h) c.name (prop c.json "plan").toKey
  rw [hm] at herr
  constructor
  · rintro (⟨-, err, he⟩ | ⟨q', err, he, -⟩)
    · exact ⟨err, (herr err).2 he⟩
    · rw [makeAccount, if_pos hok, hm] at he
      exact absurd he (hr q')
  · rintro ⟨err, he⟩
    exact .inl ⟨hok, err, (herr err).1 he⟩

theorem finishUser_fate {p₁ : Panel} (hp : Seated s parent c.name p₁) (hmake : p.makeAccount h c = (p₁, .ok none)) :
    AccountFate h p c s parent (p₁.finishUser h c.name c.json) := by
  have hstays : p.UserStays h c ↔
      ∃ err, (p₁.setFtpAccess h c.name c.json).2 = .ok (some err) ∧ h.events = .ok () := by
    constructor
    · rintro (⟨hok, err, he⟩ | ⟨q, err, he, hftp, hevents⟩)
      · have herr := (moveUserHome_error (p := p) (h := h) c.name (prop c.json "plan").toKey err).2 he
        rw [makeAccount, if_pos hok] at hmake
        rw [hmake] at herr
        cases herr
      · rw [hmake] at he
        cases he
        exact ⟨err, hftp, hevents⟩
    · rintro ⟨err, hftp, hevents⟩
      exact .inr ⟨p₁, err, hmake, hftp, hevents⟩
  have hq := hp.setFtpAccess (h := h) c.json
  unfold finishUser
  rcases hftp : p₁.setFtpAccess h c.name c.json with ⟨q, f | ret⟩
  · rw [hftp] at hstays hq
    refine .thrown hq fun hs => ?_
    obtain ⟨err, he, -⟩ := hstays.1 hs
    cases he
  · rw [hftp] at hstays hq
    dsimp only
    rcases hevents : h.events with f | ⟨⟩
    · refine .thrown hq fun hs => ?_
      obtain ⟨err, -, he⟩ := hstays.1 hs
      rw [hevents] at he
      cases he
    · cases ret with
      | none => exact .made hq
      | some err => exact .stays hq (hstays.2 ⟨err, rfl, hevents⟩)

/-- The steps behind the store leave one of these panels. -/
theorem accountSteps_fate (hp : Seated s parent c.name p) : AccountFate h p c s parent (p.accountSteps h c) := by
  have hmade : p.makeAccount h c = p.makeAccount h c := rfl
  unfold accountSteps
  conv at hmade => rhs; unfold makeAccount
  by_cases hok : c.person_username_ok.truthy = true
  · rw [if_pos hok] at hmade
    have hsame := moveUserHome_same (p := p) (h := h) c.name (prop c.json "plan").toKey
    rcases hmove : p.moveUserHome h c.name (prop c.json "plan").toKey with ⟨q, f | (_ | err)⟩
    · rw [hmove] at hmade hsame
      rw [hmade]
      refine .thrown (hp.same hsame) fun hs => ?_
      obtain ⟨err, he⟩ := (UserStays.of_move hok hmove fun p' he => by cases he).1 hs
      cases he
    · rw [hmove] at hmade hsame
      have hfate := finishUser_fate (hp.same hsame) hmade
      rw [hmade]
      exact hfate
    · rw [hmove] at hmade hsame
      rw [hmade]
      exact .stays (hp.same hsame) ((UserStays.of_move hok hmove fun p' he => by cases he).2 ⟨err, rfl⟩)
  · rw [if_neg hok] at hmade
    have hout : (∀ q, p.makeAccount h c ≠ (q, .ok none)) → ¬p.UserStays h c := by
      rintro hne (⟨he, -⟩ | ⟨q, err, he, -⟩)
      · exact hok he
      · exact hne q he
    have hsame := addSystemUser_same (p := p) (h := h) c.json
    rcases hadd : p.addSystemUser h c.json with ⟨q, f | (_ | err)⟩
    · rw [hadd] at hmade hsame
      rw [hmade] at hout ⊢
      exact .thrown (hp.same hsame) (hout fun q' he => by cases he)
    · rw [hadd] at hmade hsame
      have hfate := finishUser_fate (hp.same hsame) hmade
      rw [hmade]
      exact hfate
    · rw [hadd] at hmade hsame
      dsimp only at hmade
      rw [hsame.1] at hmade
      rcases hdel : p.db.deleteUser c.name with ⟨db, f | rep⟩
      · rw [hdel] at hmade
        rw [hmade] at hout ⊢
        refine .torn ?_ ?_ (hout fun q' he => by cases he)
        · rw [hdel]
        · rw [hdel]
      · rw [hdel] at hmade
        rw [hmade] at hout ⊢
        refine .taken ?_ (hout fun q' he => by cases he)
        rw [hdel]

end Accounts

/-- The catch takes the user away again. -/
theorem sessionAddUser_thrown {f : Fault} (ht : p.tryAddUser h c = (q, .error f)) (hm : c.name ∈ q.db.users) :
    (p.sessionAddUser h c).1.db = (q.db.deleteUser c.name).1 ∧ (p.sessionAddUser h c).2 ≠ .ok none := by
  unfold sessionAddUser
  rw [ht]
  dsimp only
  rw [if_pos hm]
  rcases q.db.deleteUser c.name with ⟨db, g | rep⟩
  · exact ⟨rfl, fun he => by cases he⟩
  · exact ⟨rfl, fun he => by cases he⟩

theorem sessionAddUser_returned {r : Option String} (ht : p.tryAddUser h c = (q, .ok r)) :
    p.sessionAddUser h c = (q, .ok r) := by
  unfold sessionAddUser
  rw [ht]

theorem sessionAddUser_rolled (hname : c.name ∉ p.db.users) (hform : "subPlans" ∉ c.json) :
    ((p.sessionAddUser h c).2 ≠ .ok none → (p.sessionAddUser h c).1.db = p.db) ↔ p.UserTakenBack h c := by
  have htry : p.tryAddUser h c = (p.withStore (p.db.addUser (prop c.json "plan").toKey c.name c.json)).andThen
      fun p => p.accountSteps h c := rfl
  unfold UserTakenBack
  rcases hadd : p.db.addUser (prop c.json "plan").toKey c.name c.json with ⟨s', r⟩
  rw [hadd] at htry
  rcases Store.addUser_cases hadd with ⟨rfl, hr⟩ | ⟨-, rfl, parent, -, -, rfl⟩
  · have hrefused : ∀ q, p.withStore (p.db, r) = (q, .ok none) → False := by
      intro q he
      exact hr (congrArg Prod.snd he)
    refine iff_of_true (fun _ => ?_) fun q he => (hrefused q he).elim
    rcases r with f | (_ | err)
    · unfold sessionAddUser
      rw [htry]
      dsimp only [withStore, Outcome.andThen]
      rw [if_neg hname]
    · exact absurd rfl hr
    · rw [sessionAddUser_returned htry]
  · obtain ⟨p₁, hp₁⟩ : ∃ p₁ : Panel, p₁ = (p.withStore (p.db.attachUser (prop c.json "plan").toKey c.name
        (User.new c.name parent.name c.json), .ok none)).1 := ⟨_, rfl⟩
    have hwith : p.withStore (p.db.attachUser (prop c.json "plan").toKey c.name
        (User.new c.name parent.name c.json), .ok none) = (p₁, .ok none) := by
      rw [hp₁]
      rfl
    have hseated : Seated p.db (prop c.json "plan").toKey c.name p₁ := by
      refine ⟨User.new c.name parent.name c.json, ?_, ?_⟩
      · rw [User.new, User.extend_subPlans, overlay_absent hform]
        rfl
      · rw [hp₁]
        rfl
    rw [hwith] at htry
    have htry : p.tryAddUser h c = p₁.accountSteps h c := htry
    have hright : (∀ q, p.withStore (p.db.attachUser (prop c.json "plan").toKey c.name
        (User.new c.name parent.name c.json), .ok none) = (q, .ok none) → (q.accountSteps h c).2 ≠ .ok none →
          ¬q.UserStays h c ∧ p.db.UserUnmentioned c.name) ↔
        ((p₁.accountSteps h c).2 ≠ .ok none → ¬p₁.UserStays h c ∧ p.db.UserUnmentioned c.name) := by
      constructor
      · intro hall
        exact hall p₁ hwith
      · intro hone q he
        rw [hwith] at he
        cases he
        exact hone
    rw [hright]
    have hfate := accountSteps_fate (h := h) hseated
    have hmem : ∀ q, Seated p.db (prop c.json "plan").toKey c.name q → c.name ∈ q.db.users := by
      intro q hq
      obtain ⟨U, hU, -⟩ := hq.get?
      exact Dict.mem_of_get? hU
    generalize p₁.accountSteps h c = out at htry hfate
    cases hfate with
    | made hq =>
      rw [sessionAddUser_returned htry]
      exact iff_of_true (fun hne => absurd rfl hne) fun hne => absurd rfl hne
    | thrown hq hstays =>
      obtain ⟨hdb, herr⟩ := sessionAddUser_thrown htry (hmem _ hq)
      rw [hdb, hq.deleteUser hname]
      exact ⟨fun hs _ => ⟨hstays, hs herr⟩, fun hs _ => (hs fun he => by cases he).2⟩
    | stays hq hstays =>
      rw [sessionAddUser_returned htry]
      exact iff_of_false (fun hs => hq.ne hname (hs fun he => by cases he)) fun hs =>
        (hs fun he => by cases he).1 hstays
    | taken hq hstays =>
      rw [sessionAddUser_returned htry, hq, hseated.deleteUser hname]
      exact ⟨fun hs _ => ⟨hstays, hs fun he => by cases he⟩, fun hs _ => (hs fun he => by cases he).2⟩
    | torn hq hdel hstays =>
      obtain ⟨hmem, hne, hno⟩ := hseated.torn hname hq hdel
      obtain ⟨hdb, herr⟩ := sessionAddUser_thrown htry hmem
      rw [hdb]
      exact iff_of_false (fun hs => hne (hs herr)) fun hs => hno (hs fun he => by cases he).2

theorem owner_withPorts {json : Obj} {arr : List Int} (hk : "owner" ∉ json) : "owner" ∉ Store.withPorts json arr := by
  have hset : ∀ k (v : JsVal) (o : Obj), k ≠ "owner" → "owner" ∉ o → "owner" ∉ o.set k v := by
    intro k v o hne ho hm
    exact (Dict.mem_set.1 hm).elim (fun he => hne he.symm) ho
  cases arr with
  | nil => exact hk
  | cons a arr =>
    cases arr with
    | nil => exact hset _ _ _ (by decide) hk
    | cons b arr => exact hset _ _ _ (by decide) (hset _ _ _ (by decide) hk)

/-- A domain is taken away again unless making its directory throws. -/
theorem sessionAddDomain_rolled (hform : "owner" ∉ c.json) :
    ((p.sessionAddDomain h username c).2 ≠ .ok none → (p.sessionAddDomain h username c).1.db = p.db) ↔
      p.DomainTakenBack h username c := by
  unfold sessionAddDomain withStore DomainTakenBack Store.sessionAddDomain
  rcases p.db.getFreePorts with f | (_ | arr)
  · exact iff_of_true (fun _ => rfl) fun he => by cases he
  · exact iff_of_true (fun _ => rfl) fun he => by cases he
  · dsimp only
    split
    · exact iff_of_true (fun _ => rfl) fun he => by cases he
    · rcases hadd : p.db.addDomain username (prop c.json "name").toKey (Store.withPorts c.json arr) with ⟨s', r⟩
      rcases Store.addDomain_cases hadd with ⟨rfl, hr⟩ | ⟨hnone, rfl, U, plan, hU, -, -, rfl⟩
      · rcases r with f | (_ | err)
        · exact iff_of_true (fun _ => rfl) fun he => by cases he
        · exact absurd rfl hr
        · exact iff_of_true (fun _ => rfl) fun he => by cases he
      · have hown : (Domain.new (prop c.json "name").toKey U.name (Store.withPorts c.json arr)).owner = U.name := by
          rw [Domain.new_owner, overlay_absent (owner_withPorts hform)]
        have hback := @Store.deleteDomain_attachDomain_iff _ (prop c.json "name").toKey _ _ _ hU hown
        have hstays : p.db.attachDomain username (prop c.json "name").toKey
            (Domain.new (prop c.json "name").toKey U.name (Store.withPorts c.json arr)) ≠ p.db := by
          intro he
          have hsome := hnone
          rw [← he, Store.getDomain?, Store.attachDomain, Store.setDomain, Dict.get?_set_self] at hsome
          cases hsome
        rcases h.appCreateHomeDir with f | (_ | err)
        · refine iff_of_false (fun hs => hstays (hs fun he => by cases he)) fun hs => ?_
          obtain ⟨⟨err, he⟩, -⟩ := hs rfl fun he => by cases he
          cases he
        · exact iff_of_true (fun hne => absurd rfl hne) fun _ hne => absurd rfl hne
        · dsimp only
          rcases hdel : (p.db.attachDomain username (prop c.json "name").toKey
            (Domain.new (prop c.json "name").toKey U.name (Store.withPorts c.json arr))).deleteDomain
              (prop c.json "name").toKey with ⟨s₂, f | rep⟩
          · rw [hdel] at hback
            exact ⟨fun hs _ _ => ⟨⟨err, rfl⟩, hback.1 (hs fun he => by cases he)⟩, fun hs _ =>
              hback.2 (hs rfl fun he => by cases he).2⟩
          · rw [hdel] at hback
            exact ⟨fun hs _ _ => ⟨⟨err, rfl⟩, hback.1 (hs fun he => by cases he)⟩, fun hs _ =>
              hback.2 (hs rfl fun he => by cases he).2⟩

theorem addPlan_rolled : (p.sessionAddPlan username c).2 ≠ .ok none → (p.sessionAddPlan username c).1.db = p.db := by
  unfold sessionAddPlan withStore
  rcases hadd : p.db.addPlan (some username) c.name (newPlanJson c.json c.planMaximums) with ⟨s', r⟩
  rcases Store.addPlan_cases hadd with ⟨rfl, -⟩ | ⟨-, rfl, -⟩
  · exact fun _ => rfl
  · exact fun hne => absurd rfl hne

/-- A refused submission of a new record leaves the store as it was exactly where no exit forgets to
take the record away and no other record has its name already. -/
theorem rolled_back_iff (p : Panel) (h : Helpers) (username : String) (c : Submission) (hform : c.OfForm)
    (hname : c.form = .addUser → c.name ∉ p.db.users) :
    p.RollsBack h username c ↔ ((prop c.json "name").truthy = true → p.TakenBack h username c) := by
  unfold RollsBack submit TakenBack
  by_cases hgiven : (prop c.json "name").truthy = true
  · rw [hgiven]
    dsimp only
    rw [if_neg (by simp)]
    refine Iff.trans ?_ (forall_prop_of_true rfl).symm
    have hlacks : ∀ k, k ∉ c.form.fields → k ∉ c.json := fun k hk hm => hk (hform k hm)
    cases hc : c.form with
    | addUser =>
      rw [hc] at hlacks
      exact sessionAddUser_rolled (hname hc) (hlacks _ (by decide))
    | addDomain =>
      rw [hc] at hlacks
      exact sessionAddDomain_rolled (hlacks _ (by decide))
    | addPlan => exact iff_of_true addPlan_rolled trivial
  · rw [Bool.eq_false_iff.2 hgiven]
    exact iff_of_true (fun _ => rfl) fun he => by cases he

def withoutFtp : Panel :=
  { db := installed.run sampleCalls, ftp := Ftp.start none, sessions := .empty, homes := .empty }

def eveForm : Submission :=
  { form := .addUser
    json := Dict.ofList [("name", .str "eve"), ("plan", .str "gold"), ("panel_access", .bool true)]
    planMaximums := .empty
    person_password := .str "secret"
    person_username_ok := .undefined }

theorem eveForm_ofForm : eveForm.OfForm := by
  change ∀ k ∈ eveForm.json.keys, k ∈ eveForm.form.fields
  decide

theorem rolled_back_sample :
    withoutFtp.RollsBack { readyHelpers with addSystemUser := .ok (some "UserAddError") } "ann" eveForm := by
  have hname : "eve" ∉ (installed.run sampleCalls).users := by decide +kernel
  refine (rolled_back_iff _ _ _ _ eveForm_ofForm fun _ => hname).2 fun _ => ?_
  intro q _ _
  refine ⟨?_, Store.UserUnmentioned.of_integrity (Store.reached_sample.keeps Store.integrity_installed fun _ _ hi hc => hi.exec hc) hname⟩
  rintro (⟨hok, -⟩ | ⟨q', err, hmade, -⟩)
  · exact absurd hok (by decide)
  · unfold makeAccount at hmade
    rw [if_neg (by decide)] at hmade
    dsimp only [addSystemUser, outcome, Outcome.andThen] at hmade
    rcases hdel : q.db.deleteUser eveForm.name with ⟨db, f | rep⟩
    · rw [hdel] at hmade
      cases hmade
    · rw [hdel] at hmade
      cases hmade

/-- The file for FTP is missing: an error is sent and the new user stays. -/
theorem refused_user_stays :
    ¬∀ (p : Panel) (h : Helpers) (username : String) (c : Submission), c.OfForm →
      (c.form = .addUser → c.name ∉ p.db.users) → p.RollsBack h username c := by
  intro h
  have hback := h withoutFtp readyHelpers "ann" eveForm eveForm_ofForm (fun _ => by decide +kernel)
    (by decide +kernel)
  have hstays : "eve" ∈ (withoutFtp.submit readyHelpers "ann" none eveForm).1.db.users := by decide +kernel
  rw [hback] at hstays
  exact absurd hstays (by decide +kernel)

end Panel
end JXPanel

import JXPanel.Removal
import JXPanel.Submit

namespace JXPanel
set_option autoImplicit true

theorem FtpConf.allow_allow (c : FtpConf) (l l' : List String) : (c.allow l).allow l' = c.allow l' := by
  have hbefore := List.dropWhile_idempotent jsSpace c.before
  have hafter : (((c.after.reverse.dropWhile jsSpace).reverse ++ ['\n']).reverse.dropWhile
      jsSpace).reverse = (c.after.reverse.dropWhile jsSpace).reverse := by
    have hnewline : ('\n' :: c.after.reverse.dropWhile jsSpace).dropWhile jsSpace =
        c.after.reverse.dropWhile jsSpace := by
      rw [List.dropWhile_cons_of_pos (by decide)]
      exact List.dropWhile_idempotent jsSpace _
    rw [List.reverse_append, List.reverse_reverse, List.reverse_singleton, List.singleton_append, hnewline]
  unfold allow
  rw [hbefore, hafter]

theorem User.ftp_access_extend (user : User) (json : Obj) :
    (user.extend json).ftp_access = ((json.get? "ftp_access").map id).getD user.ftp_access := by
  refine Dict.foldl_project assign ftp_access "ftp_access" id (fun r v => ?_) (fun r k v hk => ?_) json user
  · have hkey : "ftp_access" ∉ userKeys := by decide
    rw [assign, dif_neg hkey, ftp_access, prop, Dict.get?_set_self]
    rfl
  · unfold assign
    split
    · rw [ftp_access, (r.assignOwn_same k v).fields]
      rfl
    · rw [ftp_access, prop, Dict.get?_set_ne _ _ (Ne.symm hk)]
      rfl

theorem User.ftp_access_setFtpAccess (user : User) (b : Bool) : (user.setFtpAccess b).ftp_access = .bool b := by
  have hkey : "ftp_access" ∉ userKeys := by decide
  rw [setFtpAccess, assign, dif_neg hkey, ftp_access, prop, Dict.get?_set_self]
  rfl

namespace Store
variable {s s' : Store} {u name : String}

/-- Whether there is the user and he may use FTP. -/
def access (s : Store) (u : String) : Bool := ((s.users.get? u).map fun U => U.ftp_access.truthy).getD false

theorem access_of_get? {U : User} (hU : s.users.get? u = some U) : s.access u = U.ftp_access.truthy := by
  rw [access, hU]
  rfl

theorem access_of_absent (hu : u ∉ s.users) : s.access u = false := by
  rw [access, Dict.get?_eq_none.2 hu]
  rfl

theorem mem_of_access (h : s.access u = true) : u ∈ s.users := by
  by_contra hu
  rw [access_of_absent hu] at h
  cases h

theorem access_setUser (name : String) (U : User) (u : String) :
    (s.setUser name U).access u = if u = name then U.ftp_access.truthy else s.access u := by
  rw [access, setUser, Dict.get?_set]
  split
  · rfl
  · rfl

/-- What is found of a user that is changed only in his lists. -/
theorem access_of_map {f : User → User} (hf : ∀ U, (f U).ftp_access = U.ftp_access)
    (h : s'.users.get? u = (s.users.get? u).map f) : s'.access u = s.access u := by
  rw [access, access, h]
  cases hU : s.users.get? u with
  | none => rfl
  | some U => exact congrArg JsVal.truthy (hf U)

end Store

namespace Ftp
variable {f f' : Ftp} {db db' : Store} {name : String} {restart : Option String}

/-- The list in memory is that of the users who may use FTP, and the file has been read. -/
structure Loaded (f : Ftp) (db : Store) : Prop where
  read : ∃ conf, f.conf_str = some conf ∧ f.conf_file = some conf
  nodup : f.allowedUsers.Nodup
  listed : ∀ u, u ∈ f.allowedUsers ↔ db.access u = true

/-- The file has the list as well. -/
structure Synced (f : Ftp) (db : Store) : Prop extends Loaded f db where
  saved : ∀ conf, f.conf_str = some conf → conf.allow f.allowedUsers = conf

/-- The list that the file holds is that of the users who may use FTP. -/
def Listed (f : Ftp) (db : Store) : Prop :=
  ∃ conf l, f.conf_file = some conf ∧ conf.login = FtpConf.loginText l ∧ ∀ u, u ∈ l ↔ db.access u = true

theorem Synced.file_listed (h : f.Synced db) : f.Listed db := by
  obtain ⟨conf, hstr, hfile⟩ := h.read
  refine ⟨conf, f.allowedUsers, hfile, ?_, h.listed⟩
  rw [← h.saved conf hstr]
  rfl

theorem Synced.congr (h : f.Synced db) (hu : ∀ u, db'.access u = db.access u) : f.Synced db' := by
  refine ⟨⟨h.read, h.nodup, ?_⟩, h.saved⟩
  intro u
  rw [hu]
  exact h.listed u

theorem Synced.readConfigOnce (h : f.Synced db) (db' : Store) : f.readConfigOnce db' = (f, .ok none) := by
  obtain ⟨conf, hstr, -⟩ := h.read
  rw [Ftp.readConfigOnce, hstr]

/-- Nothing is written while the list is as it was. -/
theorem Synced.saveConfig (h : f.Synced db) (restart : Option String) : f.saveConfig restart = (f, .ok none) := by
  obtain ⟨conf, hstr, -⟩ := h.read
  rw [Ftp.saveConfig, hstr]
  exact if_pos (h.saved conf hstr)

/-- A list that goes with the flags is saved when the server is restarted. -/
theorem Loaded.saveConfig (h : f.Loaded db) : (f.saveConfig none).1.Synced db := by
  obtain ⟨conf, hstr, hfile⟩ := h.read
  rw [Ftp.saveConfig, hstr]
  by_cases hnew : conf.allow f.allowedUsers = conf
  · dsimp only
    rw [if_pos hnew]
    refine ⟨h, ?_⟩
    intro conf' hstr'
    rw [hstr] at hstr'
    cases hstr'
    exact hnew
  · dsimp only
    rw [if_neg hnew]
    refine ⟨⟨⟨_, rfl, rfl⟩, h.nodup, h.listed⟩, ?_⟩
    intro conf' hstr'
    cases hstr'
    exact conf.allow_allow _ _

theorem Loaded.add (h : f.Loaded db) {U : User} (hU : db.users.get? name = some U)
    (hflag : U.ftp_access.truthy = false) :
    { f with allowedUsers := f.allowedUsers ++ [name] }.Loaded (db.setUser name (U.setFtpAccess true)) := by
  have hout : name ∉ f.allowedUsers := by
    rw [h.listed, Store.access_of_get? hU, hflag]
    exact Bool.false_ne_true
  refine ⟨h.read, ?_, ?_⟩
  · apply List.nodup_append.2
    refine ⟨h.nodup, List.nodup_singleton _, ?_⟩
    intro a ha b hb he
    exact hout (List.mem_singleton.1 hb ▸ he ▸ ha)
  · intro u
    rw [Store.access_setUser, User.ftp_access_setFtpAccess, List.mem_append, List.mem_singleton, h.listed]
    split
    · next he => exact iff_of_true (.inr he) rfl
    · next he => exact or_iff_left he

theorem Loaded.erase (h : f.Loaded db) (U : User) :
    { f with allowedUsers := f.allowedUsers.erase name }.Loaded (db.setUser name (U.setFtpAccess false)) := by
  refine ⟨h.read, h.nodup.erase name, ?_⟩
  intro u
  rw [Store.access_setUser, User.ftp_access_setFtpAccess, h.nodup.mem_erase_iff, h.listed]
  split
  · next he => exact iff_of_false (fun hu => hu.1 he) Bool.false_ne_true
  · next he => exact and_iff_right he

theorem allowUser_synced (hread : f.readConfigOnce db = (f', .ok none)) (h : f'.Loaded db)
    (hname : name ∈ db.users) : (f.allowUser db name none).1.1.Synced (f.allowUser db name none).1.2 := by
  obtain ⟨U, hU⟩ := Dict.mem_iff.1 hname
  rw [Ftp.allowUser, hU]
  dsimp only
  rw [hread]
  cases hflag : U.ftp_access.truthy with
  | true => exact h.saveConfig
  | false =>
    have hout : name ∉ f'.allowedUsers := by
      rw [h.listed, Store.access_of_get? hU, hflag]
      exact Bool.false_ne_true
    dsimp only
    rw [if_neg Bool.false_ne_true, if_neg hout]
    exact (h.add hU hflag).saveConfig

theorem denyUser_synced (hread : f.readConfigOnce db = (f', .ok none)) (h : f'.Loaded db)
    (hname : name ∈ db.users) : (f.denyUser db name none).1.1.Synced (f.denyUser db name none).1.2 := by
  obtain ⟨U, hU⟩ := Dict.mem_iff.1 hname
  rw [Ftp.denyUser, hU]
  dsimp only
  rw [hread]
  cases hflag : U.ftp_access.truthy with
  | true =>
    dsimp only
    rw [if_pos rfl, Store.updateUser_self]
    exact (h.erase U).saveConfig
  | false => exact h.saveConfig

/-- A user who may use FTP already is left alone. -/
theorem Synced.allowUser_idle (h : f.Synced db) (hname : name ∉ db.users ∨ db.access name = true) :
    (f.allowUser db name restart).1 = (f, db) := by
  rw [Ftp.allowUser]
  cases hU : db.users.get? name with
  | none => rfl
  | some U =>
    have hflag : U.ftp_access.truthy = true := by
      rcases hname with hout | hflag
      · exact absurd (Dict.mem_of_get? hU) hout
      · rw [← Store.access_of_get? hU, hflag]
    dsimp only
    rw [h.readConfigOnce]
    dsimp only
    rw [if_pos hflag, h.saveConfig]

theorem Synced.denyUser_idle (h : f.Synced db) (hname : db.access name = false) :
    (f.denyUser db name restart).1 = (f, db) := by
  rw [Ftp.denyUser]
  cases hU : db.users.get? name with
  | none => rfl
  | some U =>
    rw [Store.access_of_get? hU] at hname
    dsimp only
    rw [h.readConfigOnce]
    dsimp only
    rw [hname, if_neg Bool.false_ne_true, h.saveConfig]

/-- A user without access is not written. -/
theorem denyUser_store (hname : db.access name = false) : (f.denyUser db name restart).1.2 = db := by
  rw [Ftp.denyUser]
  cases hU : db.users.get? name with
  | none => rfl
  | some U =>
    rw [Store.access_of_get? hU] at hname
    dsimp only
    rcases f.readConfigOnce db with ⟨f', e | (_ | err)⟩
    · rfl
    · dsimp only
      rw [hname, if_neg Bool.false_ne_true]
    · rfl

theorem Synced.allowUser (h : f.Synced db)
    (hrestart : restart = none ∨ name ∉ db.users ∨ db.access name = true) :
    (f.allowUser db name restart).1.1.Synced (f.allowUser db name restart).1.2 := by
  by_cases hidle : name ∉ db.users ∨ db.access name = true
  · rw [h.allowUser_idle hidle]
    exact h
  · have hname : name ∈ db.users := not_not.1 fun hout => hidle (.inl hout)
    rcases hrestart with rfl | hr
    · exact allowUser_synced (h.readConfigOnce db) h.toLoaded hname
    · exact (hidle hr).elim

theorem Synced.denyUser (h : f.Synced db) (hrestart : restart = none ∨ db.access name = false) :
    (f.denyUser db name restart).1.1.Synced (f.denyUser db name restart).1.2 := by
  cases hflag : db.access name with
  | false =>
    rw [h.denyUser_idle hflag]
    exact h
  | true =>
    rcases hrestart with rfl | hr
    · exact denyUser_synced (h.readConfigOnce db) h.toLoaded (Store.mem_of_access hflag)
    · rw [hflag] at hr
      cases hr

theorem runAll_readUser (hnamed : ∀ u U, db.users.get? u = some U → U.name = u) {l : List String}
    (hl : ∀ u ∈ l, u ∈ db.users) (f : Ftp) :
    Collect.runAll (readUser db) l f = ({ f with allowedUsers := f.allowedUsers ++ l.filter db.access }, .ok ()) := by
  induction l generalizing f with
  | nil => rw [Collect.runAll, List.filter_nil, List.append_nil]
  | cons u l ih =>
    obtain ⟨U, hU⟩ := Dict.mem_iff.1 (hl u List.mem_cons_self)
    have hrest := fun g => ih (fun v hv => hl v (List.mem_cons_of_mem _ hv)) g
    rw [Collect.runAll, readUser, hU]
    dsimp only
    rw [List.filter_cons, Store.access_of_get? hU]
    cases U.ftp_access.truthy with
    | true =>
      rw [if_pos rfl, if_pos rfl, hrest, hnamed u U hU, List.append_assoc]
      rfl
    | false =>
      rw [if_neg Bool.false_ne_true, if_neg Bool.false_ne_true]
      exact hrest f

end Ftp

namespace Store
variable {s s' : Store} {u name : String}

theorem access_attachUser (parent : String) (U : User) (u : String) :
    (s.attachUser parent name U).access u = if u = name then U.ftp_access.truthy else s.access u :=
  access_setUser name U u

/-- What the deletion of plans owned by a user leaves of the others. -/
structure Spares (s s' : Store) : Prop where
  access : ∀ u, s'.access u = s.access u
  seats : ∀ p, s'.seats p ⊆ s.seats p
  subs : ∀ p, s'.subs p ⊆ s.subs p

theorem Spares.usersUnder (h : Spares s s') {os : List String} (hu : u ∈ s'.usersUnder os) :
    u ∈ s.usersUnder os := by
  obtain ⟨o, ho, q, hq, hu⟩ := hu
  exact ⟨o, ho, q, hq.mono h.subs, h.seats q hu⟩

theorem Spares.deletePlan (h : Spares s s') {o : String} (hunder : ∀ u ∈ s.usersUnder [o], s.access u = false) :
    Spares s (s'.deletePlan o).1 := by
  rcases hdel : s'.deletePlan o with ⟨t, r⟩
  rcases deletePlan_cases hdel with ⟨rfl, -⟩ | ⟨plan, owner, arr, -, -, harr, rfl, -⟩
  · exact h
  · refine ⟨?_, ?_, ?_⟩
    · intro u
      rw [← h.access u]
      by_cases hu : u ∈ arr.users
      · obtain ⟨q, hq, huq⟩ := ((planContents_mem harr).users u).1 hu
        have hbelow : u ∈ s'.usersUnder [o] := mem_usersUnder_singleton.2 ⟨q, Hierarchy.below_of_mem_descend hq, huq⟩
        rw [h.access, hunder u (h.usersUnder hbelow)]
        rw [Store.access, get?_users_removePlan, if_pos hu]
        rfl
      · by_cases ho : u = plan.owner
        · apply access_of_map (f := fun U => { U with subPlans := U.subPlans.erase o }) fun U => rfl
          rw [get?_users_removePlan, if_neg hu, if_pos ho]
        · apply access_of_map (f := id) fun U => rfl
          rw [get?_users_removePlan, if_neg hu, if_neg ho, Option.map_id]
          rfl
    · intro p
      exact List.Subset.trans (seats_removePlan_subset p) (h.seats p)
    · intro p
      exact List.Subset.trans (subs_removePlan_subset p) (h.subs p)

theorem Spares.deleteSubPlans (h : Spares s s') {os : List String}
    (hunder : ∀ u ∈ s.usersUnder os, s.access u = false) (subs : Report) :
    Spares s (deleteSubPlans os s' subs).1 := by
  induction os generalizing s' subs with
  | nil => exact h
  | cons o os ih =>
    have hfirst := h.deletePlan (o := o) fun u hu => hunder u (mem_usersUnder_cons.2 (.inl hu))
    rw [Store.deleteSubPlans]
    rcases hdel : s'.deletePlan o with ⟨t, r⟩
    rw [hdel] at hfirst
    cases r with
    | error f => exact hfirst
    | ok res => exact ih hfirst (fun u hu => hunder u (mem_usersUnder_cons.2 (.inr hu))) _

theorem dropDomains_users (name : String) (l : List String) (s : Store) :
    (Collect.runAll (dropDomainOf name) l s).1.users = s.users := by
  refine Collect.runAll_keeps (P := fun t : Store => t.users = s.users) (fun t d _ ht => ?_) rfl
  unfold dropDomainOf
  split
  · exact ht
  · exact ht
  · dsimp only
    split
    · exact ht
    · exact ht

/-- No access goes with a user who has none and has no one with access below him. -/
theorem access_deleteUser (hname : s.access name = false)
    (hunder : ∀ u ∈ s.usersUnder (s.ownPlans name), s.access u = false) (u : String) :
    (s.deleteUser name).1.access u = s.access u := by
  unfold Store.deleteUser
  cases hU : s.users.get? name with
  | none => rfl
  | some U =>
    dsimp only
    rw [ownPlans_of_get? hU] at hunder
    have hsubs := (Spares.mk (fun _ => rfl) (fun _ _ => id) fun _ _ => id : Spares s s).deleteSubPlans hunder
      { plans := [], users := [name], domains := [] }
    rcases hrun : Store.deleteSubPlans U.subPlans.keys s { plans := [], users := [name], domains := [] } with ⟨s₁, r⟩
    rw [hrun] at hsubs
    cases r with
    | error f => exact hsubs.access u
    | ok subs =>
      have hdrop := dropDomains_users name s₁.domains.keys (s₁.detachUser name)
      dsimp only
      rcases hdrops : Collect.runAll (dropDomainOf name) s₁.domains.keys (s₁.detachUser name) with ⟨s₂, r⟩
      rw [hdrops] at hdrop
      have hkept : ∀ v, s₂.access v = s.access v := by
        intro v
        rw [← hsubs.access v]
        exact access_of_map (f := id) (fun U => rfl) (by rw [hdrop, Option.map_id]; rfl)
      cases r with
      | error f => exact hkept u
      | ok r =>
        by_cases hu : u = name
        · rw [hu, hname]
          exact access_of_absent fun hm => (Dict.mem_erase.1 hm).1 rfl
        · rw [← hkept u]
          apply access_of_map (f := id) fun U => rfl
          change (s₂.users.erase name).get? u = _
          rw [Dict.get?_erase_ne _ hu, Option.map_id]
          rfl

end Store

/-- What changes the users or their access while the panel runs. -/
inductive AccessEvent
  | addUser (h : Helpers) (c : Submission)
  | editUser (h : Helpers) (username update_name : String) (c : Submission)
  | deleteUser (name : String)
  | allowUser (name : String) (restart : Option String)
  | denyUser (name : String) (restart : Option String)

namespace Panel
variable {p : Panel} {h : Helpers} {c : Submission} {name username : String}

def afterAccess (p : Panel) : AccessEvent → Panel
  | .addUser h c => (p.sessionAddUser h c).1
  | .editUser h username update_name c => (p.sessionEditUser h username update_name c).1
  | .deleteUser name => { p with db := (p.db.deleteUser name).1 }
  | .allowUser name restart =>
    let r := p.ftp.allowUser p.db name restart
    { p with ftp := r.1.1, db := r.1.2 }
  | .denyUser name restart =>
    let r := p.ftp.denyUser p.db name restart
    { p with ftp := r.1.1, db := r.1.2 }

/-- Every user is found below the root plan, once and under his name. -/
structure Complete (db : Store) : Prop where
  found : ∃ l, db.getUsersByPlanName 10000000 unlimitedPlanName = .ok l ∧ l.Nodup ∧ ∀ u, u ∈ l ↔ u ∈ db.users
  named : ∀ u U, db.users.get? u = some U → U.name = u

/-- The panel behind the first call of the module, on the records as they are then. -/
def Opened (p : Panel) : Prop :=
  ∃ conf db name, Complete db ∧ name ∈ db.users ∧
    (p.ftp, p.db) ∈ [((Ftp.start (some conf)).allowUser db name none).1, ((Ftp.start (some conf)).denyUser db name none).1]

/-- The user's own form, which does not have the field, leaves his access as it is. -/
def KeepsOwnAccess (p : Panel) : AccessEvent → Prop
  | .editUser h username update_name c => username = update_name → "ftp_access" ∉ c.json →
      ((p.sessionEditUser h username update_name c).1.db.users.get? username).map User.ftp_access =
        (p.db.users.get? username).map User.ftp_access
  | _ => True

/-- The access that is submitted is the one that the user has, no access goes with a deletion, and
the server is restarted when its file is written. -/
def AccessAgrees (p : Panel) : AccessEvent → Prop
  | .addUser _ c => c.name ∉ p.db.users ∧ "subPlans" ∉ c.json ∧
      ((prop c.json "ftp_access").truthy = true →
        (p.db.addUser (prop c.json "plan").toKey c.name c.json).2 ≠ .ok none)
  | .editUser h username update_name c =>
    match c.json.get? "ftp_access" with
    | some v => v.truthy = p.db.access update_name
    | none => p.db.access update_name = true → username ≠ update_name ∧ h.restart = none
  | .deleteUser name => p.db.access name = false ∧
      ∀ u ∈ p.db.usersUnder (p.db.ownPlans name), p.db.access u = false
  | .allowUser name restart => restart = none ∨ name ∉ p.db.users ∨ p.db.access name = true
  | .denyUser name restart => restart = none ∨ p.db.access name = false

theorem Complete.loaded {db : Store} (hdb : Complete db) (conf : FtpConf) :
    ∃ f, (Ftp.start (some conf)).readConfigOnce db = (f, .ok none) ∧ f.Loaded db := by
  obtain ⟨l, hl, hnodup, hmem⟩ := hdb.found
  have hrun := Ftp.runAll_readUser hdb.named (fun u hu => (hmem u).1 hu) (Ftp.start (some conf))
  refine ⟨⟨l.filter db.access, some conf, some conf⟩, ?_, ⟨conf, rfl, rfl⟩, hnodup.filter _, ?_⟩
  · unfold Ftp.readConfigOnce
    dsimp only [Ftp.start] at hrun ⊢
    rw [hl]
    dsimp only
    rw [hrun]
    rfl
  · intro u
    rw [List.mem_filter, hmem]
    exact and_iff_right_of_imp Store.mem_of_access

theorem Opened.synced (hp : p.Opened) : p.ftp.Synced p.db := by
  obtain ⟨conf, db, name, hdb, hname, hp⟩ := hp
  obtain ⟨f, hread, hf⟩ := hdb.loaded conf
  rcases List.mem_cons.1 hp with he | hp
  · have hsynced := Ftp.allowUser_synced hread hf hname
    rw [← he] at hsynced
    exact hsynced
  · have hsynced := Ftp.denyUser_synced hread hf hname
    rw [← List.mem_singleton.1 hp] at hsynced
    exact hsynced

end Panel

/-- What holds after a step and is kept by the next one holds after both. -/
theorem Outcome.andThen_keeps {P : Panel → Prop} {r : Outcome} {next : Panel → Outcome} (hr : P r.1)
    (hnext : r.2 = .ok none → P r.1 → P (next r.1).1) : P (r.andThen next).1 := by
  rcases r with ⟨p, f | (_ | err)⟩
  · exact hr
  · exact hnext rfl hr
  · exact hr

namespace Panel
variable {p q : Panel} {h : Helpers} {c : Submission} {name username : String} {json : Obj}

/-- The panels have the same records and the same state of the server for FTP. -/
def SameAccess (p q : Panel) : Prop := q.db = p.db ∧ q.ftp = p.ftp

theorem withHome_same (plan_name user_name : String) (place : List Char → Dict String (List Char)) :
    SameAccess p (p.withHome h plan_name user_name place).1 := by
  unfold withHome
  split
  · exact ⟨rfl, rfl⟩
  · exact ⟨rfl, rfl⟩

theorem addSystemUser_same (json : Obj) : SameAccess p (p.addSystemUser h json).1 := by
  apply Outcome.andThen_keeps (P := SameAccess p)
  · exact ⟨rfl, rfl⟩
  · intro _ _
    exact withHome_same _ _ _

theorem moveUserHome_same (user_name new_plan_name : String) :
    SameAccess p (p.moveUserHome h user_name new_plan_name).1 := by
  apply Outcome.andThen_keeps (P := SameAccess p)
  · exact ⟨rfl, rfl⟩
  · intro _ _
    apply Outcome.andThen_keeps (P := SameAccess p)
    · exact withHome_same _ _ _
    · intro _ hsame
      exact hsame

theorem finishUser_fst (update_name : String) : (p.finishUser h update_name json).1 = (p.setFtpAccess h update_name json).1 := by
  unfold finishUser
  rcases p.setFtpAccess h update_name json with ⟨q, f | ret⟩
  · rfl
  · rfl

/-- The user of this name, if there is one, has neither access nor plans. -/
structure Added (name : String) (q : Panel) : Prop where
  synced : q.ftp.Synced q.db
  denied : q.db.access name = false
  plain : q.db.ownPlans name = []

theorem Added.same (hp : Added name p) (hq : SameAccess p q) : Added name q := by
  obtain ⟨hdb, hftp⟩ := hq
  refine ⟨?_, ?_, ?_⟩
  · rw [hdb, hftp]
    exact hp.synced
  · rw [hdb]
    exact hp.denied
  · rw [hdb]
    exact hp.plain

theorem ownPlans_deleteUser {s : Store} (hplain : s.ownPlans name = []) : (s.deleteUser name).1.ownPlans name = [] := by
  unfold Store.deleteUser
  cases hU : s.users.get? name with
  | none => exact hplain
  | some U =>
    dsimp only
    rw [Store.ownPlans_of_get? hU] at hplain
    rw [hplain, Store.deleteSubPlans]
    have hdrop := Store.dropDomains_users name s.domains.keys (s.detachUser name)
    dsimp only
    rcases hdrops : Collect.runAll (Store.dropDomainOf name) s.domains.keys (s.detachUser name) with ⟨s₂, f | r⟩
    · rw [hdrops] at hdrop
      have hU₂ : s₂.users.get? name = some U := by
        rw [hdrop]
        exact hU
      exact (Store.ownPlans_of_get? hU₂).trans hplain
    · rw [Store.ownPlans_eraseUser, if_pos rfl]

theorem Added.deleteUser (hq : Added name q) : Added name { q with db := (q.db.deleteUser name).1 } := by
  have hunder : ∀ u ∈ q.db.usersUnder (q.db.ownPlans name), q.db.access u = false := by
    rw [hq.plain]
    intro u hu
    obtain ⟨o, ho, -⟩ := hu
    exact absurd ho List.not_mem_nil
  have haccess := Store.access_deleteUser hq.denied hunder
  refine ⟨hq.synced.congr haccess, ?_, ownPlans_deleteUser hq.plain⟩
  rw [haccess]
  exact hq.denied

theorem Added.setFtpAccess (hq : Added name q) (hflag : (prop json "ftp_access").truthy = false) :
    (q.setFtpAccess h name json).1 = q := by
  have hidle : (q.ftp.denyUser q.db name h.restart).1 = (q.ftp, q.db) := hq.synced.denyUser_idle hq.denied
  rw [Panel.setFtpAccess, hflag, if_neg Bool.false_ne_true, hidle]

theorem Added.addUser (hp : Added name p) (hplain : "subPlans" ∉ json) {plan : String}
    (hflag : (prop json "ftp_access").truthy = true → (p.db.addUser plan name json).2 ≠ .ok none) :
    Added name (p.withStore (p.db.addUser plan name json)).1 := by
  rcases hadd : p.db.addUser plan name json with ⟨s', r⟩
  rcases Store.addUser_cases hadd with ⟨rfl, -⟩ | ⟨hname, rfl, parent, -, -, rfl⟩
  · exact hp
  · have hfalse : (prop json "ftp_access").truthy = false := by
      rw [hadd] at hflag
      exact Bool.eq_false_iff.2 fun ht => hflag ht rfl
    have hnew : (User.new name parent.name json).ftp_access = prop json "ftp_access" := by
      rw [User.new, User.ftp_access_extend, Option.map_id]
      rfl
    have haccess : ∀ u, (p.db.attachUser plan name (User.new name parent.name json)).access u = p.db.access u := by
      intro u
      rw [Store.access_attachUser]
      split
      · next he => rw [hnew, hfalse, he, hp.denied]
      · rfl
    refine ⟨hp.synced.congr haccess, (haccess name).trans hp.denied, ?_⟩
    change (p.db.attachUser plan name (User.new name parent.name json)).ownPlans name = []
    rw [Store.ownPlans_attachUser, if_pos rfl, User.new, User.extend_subPlans, overlay_absent hplain]
    rfl

theorem Added.makeAccount (hp : Added c.name p) : Added c.name (p.makeAccount h c).1 := by
  unfold Panel.makeAccount
  split
  · exact hp.same (moveUserHome_same _ _)
  · have hmade := hp.same (addSystemUser_same (h := h) c.json)
    split
    · next q err hsystem =>
      rw [hsystem] at hmade
      have hdeleted := hmade.deleteUser
      split
      · next hdel =>
        rw [hdel] at hdeleted
        exact hdeleted
      · next hdel =>
        rw [hdel] at hdeleted
        exact hdeleted
    · exact hmade

theorem Added.tryAddUser (hp : Added c.name p) (hplain : "subPlans" ∉ c.json)
    (hflag : (prop c.json "ftp_access").truthy = true →
      (p.db.addUser (prop c.json "plan").toKey c.name c.json).2 ≠ .ok none) :
    Added c.name (p.tryAddUser h c).1 := by
  apply Outcome.andThen_keeps (P := Added c.name)
  · exact hp.addUser hplain hflag
  · intro hstored hq
    have hfalse : (prop c.json "ftp_access").truthy = false := Bool.eq_false_iff.2 fun ht => hflag ht hstored
    apply Outcome.andThen_keeps (P := Added c.name)
    · exact hq.makeAccount
    · intro _ hq'
      rw [finishUser_fst, hq'.setFtpAccess hfalse]
      exact hq'

theorem Added.sessionAddUser (hp : Added c.name p) (hplain : "subPlans" ∉ c.json)
    (hflag : (prop c.json "ftp_access").truthy = true →
      (p.db.addUser (prop c.json "plan").toKey c.name c.json).2 ≠ .ok none) :
    Added c.name (p.sessionAddUser h c).1 := by
  have htried := hp.tryAddUser (h := h) hplain hflag
  unfold Panel.sessionAddUser
  split
  · next q f hq =>
    rw [hq] at htried
    split
    · have hdeleted := htried.deleteUser
      split
      · next hdel =>
        rw [hdel] at hdeleted
        exact hdeleted
      · next hdel =>
        rw [hdel] at hdeleted
        exact hdeleted
    · exact htried
  · exact htried

theorem endSessions_same (update_name : String) : SameAccess p (p.endSessions username update_name json).1 := by
  unfold endSessions
  split
  · exact ⟨rfl, rfl⟩
  · exact ⟨rfl, rfl⟩

/-- Only the fields of the record and the access of the user are written. -/
theorem writeUser_keeps {P : Panel → Prop} {U : User} (hU : p.db.users.get? name = some U)
    (hsame : ∀ q q', SameAccess q q' → P q → P q')
    (hedit : P { p with db := p.db.setUser name (U.extend c.json) })
    (hfinish : ∀ q, SameAccess { p with db := p.db.setUser name (U.extend c.json) } q →
      P (q.setFtpAccess h name c.json).1) : P (p.writeUser h username name c).1 := by
  have hedited : p.withStore (p.db.editUser name c.json) =
      ({ p with db := p.db.setUser name (U.extend c.json) }, .ok none) := by
    rw [Store.editUser_eq hU]
    rfl
  unfold writeUser
  rw [hedited]
  dsimp only
  split
  · exact hedit
  · apply Outcome.andThen_keeps (P := P)
    · exact hsame _ _ (endSessions_same name) hedit
    · intro _ hended
      split
      · exact hended
      · rw [finishUser_fst]
        exact hfinish _ (endSessions_same name)

theorem sessionEditUser_keeps {P : Panel → Prop} (hp : P p) (hsame : ∀ q q', SameAccess q q' → P q → P q')
    (hwrite : ∀ q U, SameAccess p q → p.db.users.get? name = some U → P (q.writeUser h username name c).1) :
    P (p.sessionEditUser h username name c).1 := by
  unfold Panel.sessionEditUser
  split
  · exact hp
  · next U hU =>
    split
    · split
      · exact hwrite p U ⟨rfl, rfl⟩ hU
      · exact hp
    · split
      · exact hwrite p U ⟨rfl, rfl⟩ hU
      · have hmoved := moveUserHome_same (p := p) (h := h) name
        apply Outcome.andThen_keeps (P := P)
        · exact hsame _ _ (hmoved _) hp
        · intro _ _
          exact hwrite _ U (hmoved _) hU

theorem access_edited {U : User} (hU : p.db.users.get? name = some U)
    (hagrees : ∀ v, json.get? "ftp_access" = some v → v.truthy = p.db.access name) (u : String) :
    (p.db.setUser name (U.extend json)).access u = p.db.access u := by
  rw [Store.access_setUser]
  split
  · next he =>
    rw [he, Store.access_of_get? hU, User.ftp_access_extend, Option.map_id]
    cases hv : json.get? "ftp_access" with
    | none => rfl
    | some v => exact (hagrees v hv).trans (Store.access_of_get? hU)
  · rfl

theorem prop_of_get? {v : JsVal} (hv : json.get? "ftp_access" = some v) : prop json "ftp_access" = v := by
  rw [prop, hv]
  rfl

/-- An edit that submits the access as it is, or none where it may be taken away. -/
theorem synced_editUser (hp : p.ftp.Synced p.db) (hagrees : p.AccessAgrees (.editUser h username name c)) :
    (p.sessionEditUser h username name c).1.ftp.Synced (p.sessionEditUser h username name c).1.db := by
  have hsame : ∀ q q' : Panel, SameAccess q q' → q.ftp.Synced q.db → q'.ftp.Synced q'.db := by
    intro q q' hq hsync
    rw [hq.1, hq.2]
    exact hsync
  have hvalue : ∀ v, c.json.get? "ftp_access" = some v → v.truthy = p.db.access name := by
    intro v hv
    rw [AccessAgrees, hv] at hagrees
    exact hagrees
  apply sessionEditUser_keeps (P := fun q => q.ftp.Synced q.db) hp hsame
  intro q U hq hU
  have hU' : q.db.users.get? name = some U := by
    rw [hq.1]
    exact hU
  have hq' : q.ftp.Synced q.db := hsame p q hq hp
  have haccess : ∀ u, (q.db.setUser name (U.extend c.json)).access u = p.db.access u := by
    rw [hq.1]
    exact access_edited hU hvalue
  have hedited : q.ftp.Synced (q.db.setUser name (U.extend c.json)) := by
    apply hq'.congr
    intro u
    rw [haccess, hq.1]
  apply writeUser_keeps (P := fun q => q.ftp.Synced q.db) hU' hsame hedited
  intro q₂ hq₂
  have hsync : q₂.ftp.Synced q₂.db := hsame _ q₂ hq₂ hedited
  have hname : q₂.db.access name = p.db.access name := by
    rw [hq₂.1]
    exact haccess name
  unfold Panel.setFtpAccess
  cases hv : c.json.get? "ftp_access" with
  | some v =>
    rw [prop_of_get? hv]
    have hv' : v.truthy = q₂.db.access name := (hvalue v hv).trans hname.symm
    cases ht : v.truthy with
    | true => exact hsync.allowUser (.inr (.inr (hv' ▸ ht)))
    | false => exact hsync.denyUser (.inr (hv' ▸ ht))
  | none =>
    rw [AccessAgrees, hv] at hagrees
    rw [prop, hv]
    apply hsync.denyUser
    cases hflag : p.db.access name with
    | true => exact .inl (hagrees hflag).2
    | false => exact .inr (hname.trans hflag)

/-- The own form of a user without access leaves him without. -/
theorem keepsOwnAccess_of_agrees {e : AccessEvent} (hagrees : p.AccessAgrees e) :
    p.KeepsOwnAccess e := by
  cases e with
  | editUser h username update_name c =>
    rintro rfl hout
    have hnone : c.json.get? "ftp_access" = none := Dict.get?_eq_none.2 hout
    have hdenied : p.db.access username = false := by
      rw [AccessAgrees, hnone] at hagrees
      exact Bool.eq_false_iff.2 fun hflag => (hagrees hflag).1 rfl
    have hsame : ∀ q q' : Panel, SameAccess q q' →
        (q.db.users.get? username).map User.ftp_access = (p.db.users.get? username).map User.ftp_access →
        (q'.db.users.get? username).map User.ftp_access = (p.db.users.get? username).map User.ftp_access := by
      intro q q' hq h
      rw [hq.1]
      exact h
    apply sessionEditUser_keeps (P := fun q => (q.db.users.get? username).map User.ftp_access =
      (p.db.users.get? username).map User.ftp_access) rfl hsame
    intro q U hq hU
    have hU' : q.db.users.get? username = some U := by
      rw [hq.1]
      exact hU
    have hedited : ((q.db.setUser username (U.extend c.json)).users.get? username).map User.ftp_access =
        (p.db.users.get? username).map User.ftp_access := by
      rw [Store.setUser, Dict.get?_set_self, hU, Option.map_some, User.ftp_access_extend, hnone]
      rfl
    apply writeUser_keeps (P := fun q => (q.db.users.get? username).map User.ftp_access =
      (p.db.users.get? username).map User.ftp_access) hU' hsame hedited
    intro q₂ hq₂
    have hname : q₂.db.access username = false := by
      rw [hq₂.1]
      change (q.db.setUser username (U.extend c.json)).access username = false
      rw [hq.1, access_edited hU, hdenied]
      intro v hv
      rw [hnone] at hv
      cases hv
    have hfalse : (prop c.json "ftp_access").truthy = false := by
      rw [prop, hnone]
      rfl
    have hkept : (q₂.setFtpAccess h username c.json).1.db = q₂.db := by
      rw [Panel.setFtpAccess, hfalse, if_neg Bool.false_ne_true]
      exact Ftp.denyUser_store hname
    rw [hkept, hq₂.1]
    exact hedited
  | addUser h c => exact trivial
  | deleteUser name => exact trivial
  | allowUser name restart => exact trivial
  | denyUser name restart => exact trivial

theorem synced_afterAccess (hp : p.ftp.Synced p.db) {e : AccessEvent} (he : p.AccessAgrees e) :
    (p.afterAccess e).ftp.Synced (p.afterAccess e).db := by
  cases e with
  | addUser h c =>
    obtain ⟨hname, hplain, hflag⟩ := he
    have hadded : Added c.name p := by
      refine ⟨hp, Store.access_of_absent hname, ?_⟩
      rw [Store.ownPlans, Dict.get?_eq_none.2 hname]
      rfl
    exact (hadded.sessionAddUser hplain hflag).synced
  | editUser h username update_name c => exact synced_editUser hp he
  | deleteUser name => exact hp.congr (Store.access_deleteUser he.1 he.2)
  | allowUser name restart => exact hp.allowUser he
  | denyUser name restart => exact hp.denyUser he

/-- In a run whose steps agree with the flags the file always has the list of the users with access,
and no one changes his own. -/
theorem allow_list_of_run {p₀ p : Panel} (h₀ : p₀.Opened) (h : Runs.Reached afterAccess p₀ AccessAgrees p) :
    p.ftp.Listed p.db ∧ ∀ e, p.AccessAgrees e → p.KeepsOwnAccess e := by
  have hsynced : p.ftp.Synced p.db := h.keeps h₀.synced fun q e hq he => synced_afterAccess hq he
  exact ⟨hsynced.file_listed, fun e he => keepsOwnAccess_of_agrees he⟩

def sampleConf : FtpConf :=
  { before := "ServerName \"JXPanel\"\n".toList, login := "\n".toList, after := "\n".toList }

/-- The panel behind the first call for a user of the root plan, with a user below him. -/
def served : Panel :=
  let r := (Ftp.start (some sampleConf)).denyUser (installed.run sampleCalls) "ann" none
  { db := r.1.2, ftp := r.1.1, sessions := .empty, homes := .empty }

/-- The form for the user `bob` with the access that is given. -/
def accessForm (ftp_access : Bool) : Submission :=
  { form := .addUser
    json := Dict.ofList [("plan", .str "gold"), ("ftp_access", .bool ftp_access), ("panel_access", .bool true)]
    planMaximums := .empty
    person_password := .str ""
    person_username_ok := .undefined }

theorem complete_sample : Complete (installed.run sampleCalls) := by
  refine ⟨⟨["ann", "bob"], ?_, ?_, ?_⟩, ?_⟩
  · decide +kernel
  · decide
  · intro u
    have hkeys : (installed.run sampleCalls).users.keys = ["ann", "bob"] := by decide +kernel
    rw [← Dict.mem_keys, hkeys]
  · intro u U hU
    have hall : ∀ e ∈ (installed.run sampleCalls).users.entries, e.2.name = e.1 := by decide +kernel
    exact hall (u, U) (Dict.get?_eq_some.1 hU)

theorem served_opened : served.Opened :=
  ⟨sampleConf, installed.run sampleCalls, "ann", complete_sample, by decide +kernel, by simp [served]⟩

def sampleAccess : List AccessEvent :=
  [.allowUser "bob" none, .editUser readyHelpers "ann" "bob" (accessForm true), .denyUser "bob" none]

theorem agrees_sample : Runs.AllOk afterAccess AccessAgrees served sampleAccess := by
  refine ⟨.inl rfl, ?_, .inl rfl, trivial⟩
  change true = (served.afterAccess (.allowUser "bob" none)).db.access "bob"
  decide +kernel

theorem allow_list_of_run_sample :
    (sampleAccess.foldl afterAccess served).ftp.Listed (sampleAccess.foldl afterAccess served).db ∧
      (served.afterAccess (.allowUser "bob" none)).db.access "bob" = true :=
  ⟨(allow_list_of_run served_opened (Runs.Reached.start.run agrees_sample)).1, by decide +kernel⟩

/-- The list is not written when the form gives the access: the record is changed before. -/
theorem granted_access_not_listed :
    ¬∀ p₀ p : Panel, p₀.Opened → Runs.Reached afterAccess p₀ (fun _ _ => True) p → p.ftp.Listed p.db := by
  intro h
  have hreached : Runs.Reached afterAccess served (fun _ _ => True)
      (served.afterAccess (.editUser readyHelpers "ann" "bob" (accessForm true))) := .step .start trivial
  obtain ⟨conf, l, hfile, hlogin, hl⟩ := h served _ served_opened hreached
  have hbob : "bob" ∈ l := (hl "bob").2 (by decide +kernel)
  have hwritten : (served.afterAccess (.editUser readyHelpers "ann" "bob" (accessForm true))).ftp.conf_file =
      some (sampleConf.allow []) := by
    decide +kernel
  rw [hwritten] at hfile
  cases hfile
  have hsame : FtpConf.loginText [] = FtpConf.loginText l := hlogin
  unfold FtpConf.loginText at hsame
  rw [if_pos rfl, if_neg (List.ne_nil_of_mem hbob)] at hsame
  have hempty := List.append_cancel_left hsame
  rw [String.toList_append, String.toList_append] at hempty
  cases hempty

end Panel
end JXPanel

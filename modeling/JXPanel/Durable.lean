import JXPanel.Reasons
import JXPanel.Saved

namespace JXPanel
set_option autoImplicit true

/-- A property of every record of the store by itself, and of its settings. -/
structure EachRecord (plan : String → Plan → Prop) (user : String → User → Prop) (domain : String → Domain → Prop)
    (settings : Obj → Prop) (s : Store) : Prop where
  plans : ∀ n P, s.plans.get? n = some P → plan n P
  users : ∀ n U, s.users.get? n = some U → user n U
  domains : ∀ n D, s.domains.get? n = some (some D) → domain n D
  config : settings s.config

/-- What a call makes of one reason list. -/
def Resuspends (v v' : JsVal) : Prop := (∃ o, addReason v o = .ok v') ∨ ∃ o, removeReason v o = .ok v'

/-- The property does not depend on which records a record lists, nor on why it is suspended. -/
structure Closed (plan : String → Plan → Prop) (user : String → User → Prop) : Prop where
  planUsers : ∀ {n P} ks, plan n P → plan n { P with users := ks }
  planSuspended : ∀ {n P v}, Resuspends P.suspended v → plan n P → plan n { P with suspended := v }
  userPlans : ∀ {n U} ks, user n U → user n { U with subPlans := ks }
  userDomains : ∀ {n U} ks, user n U → user n { U with domains := ks }
  userSuspended : ∀ {n U v}, Resuspends U.suspended v → user n U → user n { U with suspended := v }

/-- The records that a call brings have the property. -/
def Brings (plan : String → Plan → Prop) (user : String → User → Prop) (domain : String → Domain → Prop) : Call → Prop
  | .addPlan _ name opts => ∀ o P, Plan.new name o opts = .ok P → plan name P
  | .addUser _ name opts => ∀ p, user name (User.new name p opts)
  | .addDomain _ name opts => ∀ o, domain name (Domain.new name o opts)
  | .updateUser name data => user name data
  | .updateDomain name data => domain name data
  | .updatePlan name (.copy d) => plan name d
  | _ => True

namespace EachRecord
variable {plan : String → Plan → Prop} {user : String → User → Prop} {domain : String → Domain → Prop}
  {settings : Obj → Prop} {s s' : Store} {name o : String}

theorem setPlan {P : Plan} (h : EachRecord plan user domain settings s) (hP : plan name P) :
    EachRecord plan user domain settings (s.setPlan name P) := by
  refine ⟨fun n Q hQ => ?_, h.users, h.domains, h.config⟩
  rw [Store.setPlan, Dict.get?_set] at hQ
  split at hQ
  · next he =>
    cases hQ
    exact he ▸ hP
  · exact h.plans n Q hQ

theorem setUser {U : User} (h : EachRecord plan user domain settings s) (hU : user name U) :
    EachRecord plan user domain settings (s.setUser name U) := by
  refine ⟨h.plans, fun n V hV => ?_, h.domains, h.config⟩
  rw [Store.setUser, Dict.get?_set] at hV
  split at hV
  · next he =>
    cases hV
    exact he ▸ hU
  · exact h.users n V hV

theorem setDomain {D : Option Domain} (h : EachRecord plan user domain settings s)
    (hD : ∀ d, D = some d → domain name d) :
    EachRecord plan user domain settings (s.setDomain name D) := by
  refine ⟨h.plans, h.users, fun n E hE => ?_, h.config⟩
  rw [Store.setDomain, Dict.get?_set] at hE
  split at hE
  · next he => exact he ▸ hD E (Option.some.inj hE)
  · exact h.domains n E hE

theorem modifyPlan {f : Plan → Plan} (h : EachRecord plan user domain settings s)
    (hf : ∀ P, plan name P → plan name (f P)) :
    EachRecord plan user domain settings (s.modifyPlan name f) := by
  refine ⟨fun n Q hQ => ?_, h.users, h.domains, h.config⟩
  rw [Store.modifyPlan, Dict.get?_modify] at hQ
  split at hQ
  · next he =>
    obtain ⟨P, hP, rfl⟩ := Option.map_eq_some_iff.1 hQ
    rw [he] at hP ⊢
    exact hf P (h.plans name P hP)
  · exact h.plans n Q hQ

theorem modifyUser {f : User → User} (h : EachRecord plan user domain settings s)
    (hf : ∀ U, user name U → user name (f U)) :
    EachRecord plan user domain settings (s.modifyUser name f) := by
  refine ⟨h.plans, fun n V hV => ?_, h.domains, h.config⟩
  rw [Store.modifyUser, Dict.get?_modify] at hV
  split at hV
  · next he =>
    obtain ⟨U, hU, rfl⟩ := Option.map_eq_some_iff.1 hV
    rw [he] at hU ⊢
    exact hf U (h.users name U hU)
  · exact h.users n V hV

/-- Records that are left are what they were. -/
theorem of_subset (h : EachRecord plan user domain settings s)
    (hplans : ∀ n P, s'.plans.get? n = some P → s.plans.get? n = some P)
    (husers : ∀ n U, s'.users.get? n = some U → s.users.get? n = some U)
    (hdomains : ∀ n D, s'.domains.get? n = some D → s.domains.get? n = some D) (hconfig : s'.config = s.config) :
    EachRecord plan user domain settings s' :=
  ⟨fun n P hP => h.plans n P (hplans n P hP), fun n U hU => h.users n U (husers n U hU),
    fun n D hD => h.domains n D (hdomains n _ hD), hconfig ▸ h.config⟩

theorem eraseDomain (h : EachRecord plan user domain settings s) (name : String) :
    EachRecord plan user domain settings (s.eraseDomain name) := by
  refine h.of_subset (fun _ _ hP => hP) (fun _ _ hU => hU) (fun n D hD => ?_) rfl
  rw [Store.eraseDomain, Dict.get?_erase] at hD
  split at hD
  · cases hD
  · exact hD

theorem writeData {data : PlanData} (h : EachRecord plan user domain settings s)
    (hd : ∀ d, data = .copy d → plan name d) :
    EachRecord plan user domain settings (s.writeData name data) := by
  cases data with
  | live => exact h
  | copy d => exact h.setPlan (hd d rfl)

section
variable (hc : Closed plan user)
include hc

theorem suspendPlan (h : EachRecord plan user domain settings s) (name o : String) :
    EachRecord plan user domain settings (s.suspendPlan name o).1 := by
  unfold Store.suspendPlan
  split
  · exact h
  · next P hP =>
    split
    · exact h
    · next v hv => exact h.setPlan (hc.planSuspended (.inl ⟨o, hv⟩) (h.plans name P hP))

theorem unSuspendPlan (h : EachRecord plan user domain settings s) (name : String) (o : Option String) :
    EachRecord plan user domain settings (s.unSuspendPlan name o).1 := by
  unfold Store.unSuspendPlan
  split
  · exact h
  · next P hP =>
    split
    · exact h
    · next v hv => exact h.setPlan (hc.planSuspended (.inr ⟨o, hv⟩) (h.plans name P hP))

theorem suspendUser (h : EachRecord plan user domain settings s) (name o : String) :
    EachRecord plan user domain settings (s.suspendUser name o).1 := by
  unfold Store.suspendUser
  split
  · exact h
  · next U hU =>
    split
    · exact h
    · next v hv =>
      have hset := h.setUser (hc.userSuspended (.inl ⟨o, hv⟩) (h.users name U hU))
      dsimp only
      split
      · exact hset
      · exact hset
      · exact Collect.runAll_keeps (P := EachRecord plan user domain settings) (fun t i _ ht => suspendPlan hc ht i o) hset

theorem unSuspendUser (h : EachRecord plan user domain settings s) (name : String) (o : Option String) :
    EachRecord plan user domain settings (s.unSuspendUser name o).1 := by
  unfold Store.unSuspendUser
  split
  · exact h
  · next U hU =>
    split
    · exact h
    · next v hv =>
      have hset := h.setUser (hc.userSuspended (.inr ⟨o, hv⟩) (h.users name U hU))
      dsimp only
      split
      · exact hset
      · exact Collect.runAll_keeps (P := EachRecord plan user domain settings) (fun t i _ ht => unSuspendPlan hc ht i o) hset


theorem lowerSubPlans (h : EachRecord plan user domain settings s) (max_new : Obj) (l : List String) :
    EachRecord plan user domain settings (s.lowerSubPlans max_new l).1 := by
  refine Collect.runAll_keeps (P := EachRecord plan user domain settings) (fun t e _ ht => ?_) h
  refine Collect.runAll_keeps (P := EachRecord plan user domain settings) (fun t i _ ht => ?_) ht
  unfold Store.lowerSubPlan
  split
  · exact ht
  · dsimp only
    split
    · exact suspendPlan hc ht i e.1
    · exact ht

/-- A copy that is suspended, or given free, keeps the property. -/
theorem suspendData {data : PlanData} {r : (Store × PlanData) × Js Unit} (h : EachRecord plan user domain settings s)
    (hd : ∀ d, data = .copy d → plan name d) (hr : s.suspendData name o data = r) :
    EachRecord plan user domain settings r.1.1 ∧ ∀ d, r.1.2 = .copy d → plan name d := by
  cases data with
  | live =>
    cases hr
    refine ⟨suspendPlan hc h name o, fun d he => ?_⟩
    cases he
  | copy d =>
    rw [Store.suspendData] at hr
    cases hv : addReason d.suspended o with
    | error f =>
      rw [hv] at hr
      cases hr
      exact ⟨h, hd⟩
    | ok v =>
      rw [hv] at hr
      cases hr
      refine ⟨h, fun d' he => ?_⟩
      cases he
      exact hc.planSuspended (.inl ⟨o, hv⟩) (hd d rfl)

theorem suspendOver {m : Measure} {P : Plan} {data : PlanData} {r : (Store × PlanData) × Js Bool}
    (h : EachRecord plan user domain settings s) (hd : ∀ d, data = .copy d → plan name d)
    (hr : Store.suspendOver m o name P s data = r) :
    EachRecord plan user domain settings r.1.1 ∧ ∀ d, r.1.2 = .copy d → plan name d := by
  unfold Store.suspendOver at hr
  split at hr
  · cases hr
    exact ⟨h, hd⟩
  · split at hr
    · split at hr
      · next r' f hs =>
        cases hr
        exact suspendData hc h hd hs
      · next r' hs =>
        cases hr
        exact suspendData hc h hd hs
    · cases hr
      exact ⟨h, hd⟩

theorem unSuspendData {data : PlanData} (h : EachRecord plan user domain settings s)
    (hd : ∀ d, data = .copy d → plan name d) :
    EachRecord plan user domain settings (s.unSuspendData name data).1 ∧
      ∀ d, (s.unSuspendData name data).2 = .copy d → plan name d := by
  cases data with
  | live =>
    refine ⟨unSuspendPlan hc h name none, fun d he => ?_⟩
    cases he
  | copy d =>
    refine ⟨h, fun d' he => ?_⟩
    cases he
    exact hc.planSuspended (.inr ⟨none, rfl⟩) (hd d rfl)

theorem updatePlan {data : PlanData} (h : EachRecord plan user domain settings s)
    (hd : ∀ d, data = .copy d → plan name d) :
    EachRecord plan user domain settings (s.updatePlan name data).1 := by
  unfold Store.updatePlan
  split
  · exact h
  · next P hP =>
    split
    · exact h
    · split
      · exact h
      · split
        · exact h
        · unfold Store.guarded
          split
          · exact h
          · exact h
          · split
            · exact h
            · next sub_plans _ =>
              have h₁ := lowerSubPlans hc h (s.readData name P data).planMaximums sub_plans
              split
              · next s₁ f hrun =>
                rw [hrun] at h₁
                exact h₁
              · next s₁ hrun =>
                rw [hrun] at h₁
                split
                · next s₂ data₂ f hover => exact (suspendOver hc h₁ hd hover).1
                · next s₂ data₂ b₂ hover =>
                  obtain ⟨h₂, hd₂⟩ := suspendOver hc h₁ hd hover
                  split
                  · next s₃ data₃ f hover => exact (suspendOver hc h₂ hd₂ hover).1
                  · next s₃ data₃ b₃ hover =>
                    obtain ⟨h₃, hd₃⟩ := suspendOver hc h₂ hd₂ hover
                    dsimp only
                    split
                    · exact (unSuspendData hc h₃ hd₃).1.writeData (unSuspendData hc h₃ hd₃).2
                    · exact h₃.writeData hd₃


theorem deletePlan (h : EachRecord plan user domain settings s) (name : String) :
    EachRecord plan user domain settings (s.deletePlan name).1 := by
  rcases hr : s.deletePlan name with ⟨s', r⟩
  rcases Store.deletePlan_cases hr with ⟨rfl, -⟩ | ⟨P, owner, arr, -, -, -, rfl, -⟩
  · exact h
  · have howner : EachRecord plan user domain settings
        (s.modifyUser P.owner fun u => { u with subPlans := u.subPlans.erase name }) :=
      h.modifyUser fun U hU => hc.userPlans _ hU
    refine howner.of_subset (fun n Q hQ => ?_) (fun n V hV => ?_) (fun n D hD => ?_) rfl
    · rw [Store.removePlan, Dict.get?_eraseAll, Dict.get?_erase] at hQ
      split at hQ
      · cases hQ
      · split at hQ
        · cases hQ
        · exact hQ
    · rw [Store.removePlan, Dict.get?_eraseAll] at hV
      split at hV
      · cases hV
      · exact hV
    · rw [Store.removePlan, Dict.get?_eraseAll] at hD
      split at hD
      · cases hD
      · exact hD

theorem deleteSubPlans (h : EachRecord plan user domain settings s) (os : List String) (subs : Report) :
    EachRecord plan user domain settings (Store.deleteSubPlans os s subs).1 := by
  induction os generalizing s subs with
  | nil => exact h
  | cons o os ih =>
    have ho := deletePlan hc h o
    rw [Store.deleteSubPlans]
    rcases hr : s.deletePlan o with ⟨s₁, r⟩
    rw [hr] at ho
    cases r with
    | error f => exact ho
    | ok res => exact ih ho _

theorem detachUser (h : EachRecord plan user domain settings s) (name : String) :
    EachRecord plan user domain settings (s.detachUser name) := by
  refine ⟨fun n Q hQ => ?_, h.users, h.domains, h.config⟩
  rw [Store.detachUser, Dict.get?_mapVals] at hQ
  obtain ⟨P, hP, rfl⟩ := Option.map_eq_some_iff.1 hQ
  exact hc.planUsers _ (h.plans n P hP)

omit hc in
theorem eraseUser (h : EachRecord plan user domain settings s) (name : String) :
    EachRecord plan user domain settings (s.eraseUser name) := by
  refine h.of_subset (fun _ _ hP => hP) (fun n V hV => ?_) (fun _ _ hD => hD) rfl
  rw [Store.eraseUser, Dict.get?_erase] at hV
  split at hV
  · cases hV
  · exact hV

omit hc in
theorem dropDomains (h : EachRecord plan user domain settings s) (name : String) (l : List String) :
    EachRecord plan user domain settings (Collect.runAll (Store.dropDomainOf name) l s).1 := by
  refine Collect.runAll_keeps (P := EachRecord plan user domain settings) (fun t d _ ht => ?_) h
  unfold Store.dropDomainOf
  split
  · exact ht
  · exact ht
  · dsimp only
    split
    · exact ht.eraseDomain d
    · exact ht

theorem deleteUser (h : EachRecord plan user domain settings s) (name : String) :
    EachRecord plan user domain settings (s.deleteUser name).1 := by
  unfold Store.deleteUser
  split
  · exact h
  · next U hU =>
    have h₁ := deleteSubPlans hc h U.subPlans.keys { plans := [], users := [name], domains := [] }
    split
    · next s₁ f hrun =>
      rw [hrun] at h₁
      exact h₁
    · next s₁ subs hrun =>
      rw [hrun] at h₁
      have h₂ := dropDomains (detachUser hc h₁ name) name s₁.domains.keys
      split
      · next s₂ f hdrop =>
        rw [hdrop] at h₂
        exact h₂
      · next s₂ hdrop =>
        rw [hdrop] at h₂
        exact eraseUser h₂ name

theorem deleteDomain (h : EachRecord plan user domain settings s) (name : String) :
    EachRecord plan user domain settings (s.deleteDomain name).1 := by
  rcases hr : s.deleteDomain name with ⟨s', r⟩
  rcases Store.deleteDomain_cases hr with ⟨rfl, -⟩ | ⟨D, -, ⟨-, rfl, -⟩ | ⟨-, rfl, -⟩⟩
  · exact h
  · exact h.eraseDomain name
  · exact (h.eraseDomain name).modifyUser fun U hU => hc.userDomains _ hU

theorem addDomain {o name : String} {opts : Obj} (h : EachRecord plan user domain settings s)
    (hd : ∀ o, domain name (Domain.new name o opts)) :
    EachRecord plan user domain settings (s.addDomain o name opts).1 := by
  rcases hr : s.addDomain o name opts with ⟨s', r⟩
  rcases Store.addDomain_cases hr with ⟨rfl, -⟩ | ⟨-, -, U, P, -, -, -, rfl⟩
  · exact h
  · refine (h.modifyUser fun U hU => hc.userDomains _ hU).setDomain fun d he => ?_
    cases he
    exact hd U.name

/-- A domain that is moved is made of its own record again. -/
theorem updateDomain {data : Domain} (h : EachRecord plan user domain settings s) (hd : domain name data) :
    EachRecord plan user domain settings (s.updateDomain name data).1 := by
  have hnew : ∀ o, domain name (Domain.new name o data.toObj) := by
    intro o
    rw [Domain.new_toObj]
    exact hd
  cases hD : s.getDomain? name with
  | none =>
    rw [Store.updateDomain, hD]
    exact h
  | some D =>
    cases hU : s.users.get? D.owner with
    | none =>
      rw [Store.updateDomain, hD]
      dsimp only
      rw [hU]
      exact h
    | some U =>
      by_cases heq : data.owner = U.name
      · rw [Store.updateDomain_same hD hU heq]
        refine h.setDomain fun d he => ?_
        cases he
        exact hnew U.name
      · rcases hadd : (s.setDomain name none).addDomain data.owner name data.toObj with ⟨s₁, r⟩
        have hnone : EachRecord plan user domain settings (s.setDomain name none) := by
          refine h.setDomain fun d he => ?_
          cases he
        have h₁ := addDomain hc (o := data.owner) hnone hnew
        rw [hadd] at h₁
        rw [Store.updateDomain_moved hD hU heq hadd]
        cases r with
        | error f => exact h₁
        | ok res =>
          cases res with
          | none => exact h₁.modifyUser fun V hV => hc.userDomains _ hV
          | some res =>
            refine h₁.setDomain fun d he => ?_
            cases he
            exact h.domains name D (Option.join_eq_some_iff.1 hD)

/-- A call keeps what holds of every record, if it holds of those that the call brings. -/
theorem exec {c : Call} (h : EachRecord plan user domain settings s) (hb : Brings plan user domain c) :
    EachRecord plan user domain settings (s.exec c) := by
  cases c with
  | addPlan owner name opts =>
    change EachRecord plan user domain settings (s.addPlan owner name opts).1
    rcases hr : s.addPlan owner name opts with ⟨s', r⟩
    rcases Store.addPlan_cases hr with ⟨rfl, -⟩ | ⟨-, -, ⟨-, P, hP, rfl⟩ | ⟨o, U, parent, P, -, -, -, -, hP, rfl⟩⟩
    · exact h
    · exact h.setPlan (hb _ P hP)
    · exact (h.setPlan (hb _ P hP)).modifyUser fun V hV => hc.userPlans _ hV
  | addUser p name opts =>
    change EachRecord plan user domain settings (s.addUser p name opts).1
    rcases hr : s.addUser p name opts with ⟨s', r⟩
    rcases Store.addUser_cases hr with ⟨rfl, -⟩ | ⟨-, -, parent, -, -, rfl⟩
    · exact h
    · exact (h.modifyPlan fun P hP => hc.planUsers _ hP).setUser (hb parent.name)
  | addDomain o name opts => exact addDomain hc h hb
  | updateUser name data =>
    change EachRecord plan user domain settings (s.updateUser name data).1
    rcases hr : s.updateUser name data with ⟨s', r⟩
    rcases Store.updateUser_cases hr with ⟨rfl, -⟩ | ⟨U, -, -, rfl, -⟩
    · exact h
    · exact h.setUser hb
  | updateDomain name data => exact updateDomain hc h hb
  | updatePlan name data =>
    refine updatePlan hc h fun d he => ?_
    cases he
    exact hb
  | deleteDomain name => exact deleteDomain hc h name
  | deleteUser name => exact deleteUser hc h name
  | deletePlan name => exact deletePlan hc h name
  | suspendPlan name o => exact suspendPlan hc h name o
  | unSuspendPlan name o => exact unSuspendPlan hc h name o
  | suspendUser name o => exact suspendUser hc h name o
  | unSuspendUser name o => exact unSuspendUser hc h name o

end
end EachRecord

/-! What comes back as it was. -/

def permissions : List String := ["plan_custom_socket", "plan_sys_exec", "plan_local_native_modules", "plan_ssh"]

/-- A property that is there, and is read again as it is, or is not there at all. -/
def JsVal.Lasts (v : JsVal) : Prop := v = .undefined ∨ v.Storable

/-- A plan under its name that comes back as it was. -/
structure Plan.Durable (n : String) (P : Plan) : Prop where
  suspended : P.suspended.Storable
  maxDomainCount : P.maxDomainCount.Lasts
  maxUserCount : P.maxUserCount.Lasts
  canCreatePlan : P.canCreatePlan.Lasts
  canCreateUser : P.canCreateUser.Lasts
  planMaximums : (JsVal.obj P.planMaximums.entries).Storable
  fields : (JsVal.obj P.fields.entries).Storable
  permitted : n = unlimitedPlanName → ∀ k ∈ permissions, P.fields.get? k = some (.bool true)

structure User.Durable (U : User) : Prop where
  suspended : U.suspended.Storable
  fields : (JsVal.obj U.fields.entries).Storable

def Domain.Durable (D : Domain) : Prop := (JsVal.obj D.fields.entries).Storable

def Store.Durable : Store → Prop :=
  EachRecord Plan.Durable (fun _ U => U.Durable) (fun _ D => D.Durable) fun config => (JsVal.obj config.entries).Storable

section Values
variable {v v' : JsVal} {o : Obj} {k : String}

theorem JsVal.Storable.of_mem {fs : List (String × JsVal)} (h : (JsVal.obj fs).Storable) : ∀ f ∈ fs, f.2.Storable := by
  cases h with
  | obj _ _ hfields => exact hfields

theorem JsVal.Storable.empty : (JsVal.obj []).Storable := .obj [] List.nodup_nil fun _ hf => absurd hf List.not_mem_nil

/-- What a plan is given that may create plans and users. -/
theorem JsVal.Storable.limits {d u : Int} {ms : List (String × JsVal)} (hms : (JsVal.obj ms).Storable)
    (ho : o.entries = [("maxDomainCount", .num (.int d)), ("maxUserCount", .num (.int u)), ("canCreatePlan", .bool true),
      ("canCreateUser", .bool true), ("planMaximums", .obj ms)]) : (JsVal.obj o.entries).Storable := by
  refine .obj _ o.nodup ?_
  rw [ho]
  simp only [List.forall_mem_cons]
  exact ⟨.int d, .int u, .bool true, .bool true, hms, fun _ hf => absurd hf List.not_mem_nil⟩

theorem JsVal.Storable.of_entries (h : ∀ k v, o.get? k = some v → v.Storable) : (JsVal.obj o.entries).Storable :=
  .obj _ o.nodup fun f hf => h f.1 f.2 (Dict.get?_eq_some.2 hf)

theorem JsVal.Storable.get? (h : (JsVal.obj o.entries).Storable) (hv : o.get? k = some v) : v.Storable :=
  h.of_mem (k, v) (Dict.get?_eq_some.1 hv)

theorem JsVal.Storable.set (h : (JsVal.obj o.entries).Storable) (hv : v.Storable) :
    (JsVal.obj (o.set k v).entries).Storable := by
  refine .of_entries fun k' w hw => ?_
  rw [Dict.get?_set] at hw
  split at hw
  · exact Option.some.inj hw ▸ hv
  · exact h.get? hw

theorem JsVal.Storable.settle (h : (JsVal.obj o.entries).Storable) : reread o = o :=
  Dict.ext_entries (JsVal.obj.inj (Option.some.inj h.settled))

theorem JsVal.Storable.resuspends (h : v.Storable) (hr : Resuspends v v') : v'.Storable := by
  have hreasons : ∀ {w : JsVal} {l : List JsVal}, w.Storable → reasons w = .ok l → ∀ x ∈ l, x.Storable := by
    intro w l hw hl x hx
    cases hw with
    | str t =>
      cases hl
      rw [List.mem_singleton.1 hx]
      exact .str t
    | arr _ hitems =>
      cases hl
      exact hitems x hx
    | null => cases hl
    | bool b => cases hl
    | int n => cases hl
    | obj fs _ _ => cases hl
  rcases hr with ⟨r, hadd⟩ | ⟨r, hremove⟩
  · obtain ⟨l, hl, hv'⟩ := Collect.bind_ok.1 hadd
    cases hv'
    have hall : ∀ x ∈ l, x.Storable := by
      refine hreasons ?_ hl
      split
      · exact h
      · exact .arr [] fun x hx => absurd hx List.not_mem_nil
    refine .arr _ fun x hx => ?_
    split at hx
    · exact hall x hx
    · rcases List.mem_append.1 hx with hx | hx
      · exact hall x hx
      · rw [List.mem_singleton.1 hx]
        exact .str r
  · unfold removeReason at hremove
    split at hremove
    · cases hremove
      exact .bool false
    · next r _ =>
      split at hremove
      · cases hremove
        exact .bool false
      · split at hremove
        · cases hremove
          exact h
        · obtain ⟨l, hl, hv'⟩ := Collect.bind_ok.1 hremove
          cases hv'
          split
          · exact .bool false
          · exact .arr _ fun x hx => hreasons h hl x ((dropReason_sublist _ l).subset hx)

end Values

theorem closed_durable : Closed Plan.Durable (fun _ U => U.Durable) where
  planUsers _ h := { h with }
  planSuspended hr h := { h with suspended := h.suspended.resuspends hr }
  userPlans _ h := { h with }
  userDomains _ h := { h with }
  userSuspended hr h := { h with suspended := h.suspended.resuspends hr }

/-! The records that calls bring. -/

section New
variable {keys : List String} {fs opts o : Obj} {es : List (String × JsVal)} {k n : String} {v : JsVal}

theorem get?_foldl_fields (h : (es.foldl (fun fs e => if e.1 ∈ keys then fs else fs.set e.1 e.2) fs).get? k = some v) :
    fs.get? k = some v ∨ ∃ e ∈ es, e.2 = v := by
  induction es generalizing fs with
  | nil => exact .inl h
  | cons e es ih =>
    rw [List.foldl_cons] at h
    rcases ih h with hfs | ⟨e', he', hv⟩
    · split at hfs
      · exact .inl hfs
      · rw [Dict.get?_set] at hfs
        split at hfs
        · exact .inr ⟨e, List.mem_cons_self, Option.some.inj hfs⟩
        · exact .inl hfs
    · exact .inr ⟨e', List.mem_cons_of_mem e he', hv⟩

theorem JsVal.Storable.foldl_fields (h : (JsVal.obj opts.entries).Storable) :
    (JsVal.obj (opts.entries.foldl (fun fs e => if e.1 ∈ keys then fs else fs.set e.1 e.2) (Dict.empty : Obj)).entries).Storable := by
  refine .of_entries fun k v hv => ?_
  rcases get?_foldl_fields hv with hnone | ⟨e, he, rfl⟩
  · cases hnone
  · exact h.of_mem e he

theorem JsVal.Storable.overlay (h : (JsVal.obj opts.entries).Storable) (hv : v.Storable) :
    (overlay opts k id v).Storable := by
  rw [JXPanel.overlay]
  cases hk : opts.get? k with
  | none => exact hv
  | some w => exact h.get? hk

theorem JsVal.Storable.prop (h : (JsVal.obj opts.entries).Storable) (k : String) : (prop opts k).Lasts := by
  rw [JXPanel.prop]
  cases hk : opts.get? k with
  | none => exact .inl rfl
  | some w => exact .inr (h.get? hk)

theorem JsVal.Lasts.overlay (h : (JsVal.obj opts.entries).Storable) (hv : v.Lasts) : (overlay opts k id v).Lasts := by
  rw [JXPanel.overlay]
  cases hk : opts.get? k with
  | none => exact hv
  | some w => exact .inr (h.get? hk)

theorem get?_ofList (h : (Dict.ofList es).get? k = some v) : ∃ e ∈ es, e.2 = v := by
  have hset : (fun (fs : Obj) (e : String × JsVal) => if e.1 ∈ ([] : List String) then fs else fs.set e.1 e.2) =
      fun fs e => fs.set e.1 e.2 := by
    funext fs e
    exact if_neg List.not_mem_nil
  rw [Dict.ofList, ← hset] at h
  rcases get?_foldl_fields h with hnone | he
  · cases hnone
  · exact he

theorem JsVal.Storable.toObj (h : v.Storable) : (JsVal.obj v.toObj.entries).Storable := by
  refine .of_entries fun k w hw => ?_
  cases h with
  | arr l hitems =>
    obtain ⟨e, he, rfl⟩ := get?_ofList hw
    obtain ⟨x, hx, rfl⟩ := List.mem_map.1 he
    exact hitems x.1 (List.fst_mem_of_mem_zipIdx hx)
  | obj fs _ hfields =>
    obtain ⟨e, he, rfl⟩ := get?_ofList hw
    exact hfields e he
  | null => cases hw
  | bool b => cases hw
  | int n => cases hw
  | str s => cases hw

theorem checkSet_value {b : Bool} (h : checkSet k opts b = .ok v) : v = prop opts k := by
  unfold checkSet at h
  dsimp only at h
  split at h
  · exact (Except.ok.inj h).symm
  · cases h

theorem Plan.get?_extend_fields (P : Plan) (opts : Obj) (hk : k ∉ planKeys) :
    (P.extend opts).fields.get? k = ((opts.get? k).map some).getD (P.fields.get? k) := by
  refine Dict.foldl_project assign (fun P => P.fields.get? k) k some (fun r v => ?_) (fun r k' v hne => ?_) opts P
  · rw [assign, dif_neg hk]
    exact Dict.get?_set_self _ _ _
  · unfold assign
    split
    · rw [(r.assignOwn_same k' v).fields]
    · exact Dict.get?_set_ne _ _ hne.symm

/-- A new plan is durable if its options are, and bring the permissions where they are given back. -/
theorem Plan.durable_new {o : String} {P : Plan} (hopts : (JsVal.obj opts.entries).Storable)
    (hpermitted : n = unlimitedPlanName → ∀ k ∈ permissions, opts.get? k = some (.bool true))
    (h : Plan.new n o opts = .ok P) : P.Durable n := by
  obtain ⟨base, rfl, hbase⟩ : ∃ base : Plan, P = base.extend opts ∧ base.suspended = .bool false ∧
      base.maxDomainCount.Lasts ∧ base.maxUserCount.Lasts ∧ base.canCreatePlan.Lasts ∧ base.canCreateUser.Lasts ∧
      (JsVal.obj base.planMaximums.entries).Storable ∧ base.fields = .empty := by
    unfold Plan.new at h
    obtain ⟨d, hd, h⟩ := Collect.bind_ok.1 h
    obtain ⟨u, hu, h⟩ := Collect.bind_ok.1 h
    obtain ⟨cp, hcp, h⟩ := Collect.bind_ok.1 h
    obtain ⟨cu, hcu, h⟩ := Collect.bind_ok.1 h
    obtain ⟨m, hm, h⟩ := Collect.bind_ok.1 h
    cases h
    have hmaximums : (JsVal.obj m.toObj.entries).Storable := by
      rw [checkSet_value hm]
      rcases hopts.prop "planMaximums" with hnone | hsome
      · rw [hnone]
        exact .empty
      · exact hsome.toObj
    exact ⟨_, rfl, rfl, checkSet_value hd ▸ hopts.prop _, checkSet_value hu ▸ hopts.prop _,
      checkSet_value hcp ▸ hopts.prop _, checkSet_value hcu ▸ hopts.prop _, hmaximums, rfl⟩
  obtain ⟨hsuspended, hdomains, husers, hplan, huser, hmaximums, hfields⟩ := hbase
  refine ⟨?_, ?_, ?_, ?_, ?_, ?_, ?_, fun hn k hk => ?_⟩
  · rw [extend_suspended, hsuspended]
    exact hopts.overlay (.bool false)
  · rw [extend_maxDomainCount]
    exact hdomains.overlay hopts
  · rw [extend_maxUserCount]
    exact husers.overlay hopts
  · rw [extend_canCreatePlan]
    exact hplan.overlay hopts
  · rw [extend_canCreateUser]
    exact huser.overlay hopts
  · rw [extend_planMaximums, JXPanel.overlay]
    cases hk : opts.get? "planMaximums" with
    | none => exact hmaximums
    | some v => exact (hopts.get? hk).toObj
  · rw [extend_fields, hfields]
    exact hopts.foldl_fields
  · have hown : ∀ k ∈ permissions, k ∉ planKeys := by decide
    rw [get?_extend_fields base opts (hown k hk), hpermitted hn k hk]
    rfl

theorem User.durable_new (hopts : (JsVal.obj opts.entries).Storable) (p : String) : (User.new n p opts).Durable := by
  constructor
  · rw [User.new, extend_suspended]
    exact hopts.overlay (.bool false)
  · rw [User.new, extend_fields]
    exact hopts.foldl_fields

theorem Domain.durable_new (hopts : (JsVal.obj opts.entries).Storable) (o : String) : (Domain.new n o opts).Durable := by
  rw [Domain.Durable, Domain.new, extend_fields]
  exact hopts.foldl_fields

end New

/-- A call whose data JSON has a form for, and that takes no permission from the plan without limits. -/
def DurableCall : Call → Prop
  | .addPlan _ name opts => (JsVal.obj opts.entries).Storable ∧
      (name = unlimitedPlanName → ∀ k ∈ permissions, opts.get? k = some (.bool true))
  | .addUser _ _ opts => (JsVal.obj opts.entries).Storable
  | .addDomain _ _ opts => (JsVal.obj opts.entries).Storable
  | .updateUser _ data => data.Durable
  | .updateDomain _ data => data.Durable
  | .updatePlan name (.copy d) => d.Durable name
  | _ => True

theorem DurableCall.brings {c : Call} (h : DurableCall c) :
    Brings Plan.Durable (fun _ U => U.Durable) (fun _ D => D.Durable) c := by
  cases c with
  | addPlan _ name opts => exact fun o P hP => Plan.durable_new h.1 h.2 hP
  | addUser _ name opts => exact fun p => User.durable_new h p
  | addDomain _ name opts => exact fun o => Domain.durable_new h o
  | updateUser name data => exact h
  | updateDomain name data => exact h
  | updatePlan name data =>
    cases data with
    | copy d => exact h
    | live => trivial
  | deleteDomain _ => trivial
  | deleteUser _ => trivial
  | deletePlan _ => trivial
  | suspendPlan _ _ => trivial
  | unSuspendPlan _ _ => trivial
  | suspendUser _ _ => trivial
  | unSuspendUser _ _ => trivial

namespace Store
variable {s : Store}

theorem Durable.exec {c : Call} (h : s.Durable) (hc : DurableCall c) : (s.exec c).Durable :=
  EachRecord.exec closed_durable h hc.brings

theorem durable_empty : Store.empty.Durable where
  plans n P hP := by cases hP
  users n U hU := by cases hU
  domains n D hD := by cases hD
  config := .empty

theorem durable_installed : installed.Durable := by
  have hopts : (JsVal.obj unlimitedOpts.entries).Storable := by
    refine .obj _ unlimitedOpts.nodup ?_
    change ∀ f ∈ [("maxDomainCount", JsVal.num (.int 100000)), ("maxUserCount", .num (.int 100000)),
      ("canCreatePlan", .bool true), ("canCreateUser", .bool true), ("planMaximums", .obj []),
      ("plan_custom_socket", .bool true), ("plan_sys_exec", .bool true),
      ("plan_local_native_modules", .bool true), ("plan_ssh", .bool true)], f.2.Storable
    simp only [List.forall_mem_cons]
    exact ⟨.int _, .int _, .bool _, .bool _, .empty, .bool _, .bool _, .bool _, .bool _,
      fun _ hf => absurd hf List.not_mem_nil⟩
  have hpermitted : ∀ k ∈ permissions, unlimitedOpts.get? k = some (.bool true) := by
    simp only [permissions, List.forall_mem_cons]
    exact ⟨rfl, rfl, rfl, rfl, fun k hk => absurd hk List.not_mem_nil⟩
  exact durable_empty.exec (c := .addPlan none unlimitedPlanName unlimitedOpts) ⟨hopts, fun _ => hpermitted⟩

end Store

/-! Reading again. -/

section Settle
variable {P : Plan} {U : User} {D : Domain} {n k : String} {v : JsVal} {s : Store}

theorem JsVal.Lasts.settled (h : v.Lasts) : v.settled.getD .undefined = v := by
  rcases h with rfl | h
  · rfl
  · rw [h.settled, Option.getD_some]

theorem JsVal.settled_none (h : v.settled = none) : v = .undefined := by
  cases v with
  | undefined => rfl
  | null => cases h
  | bool b => cases h
  | num n =>
    cases n with
    | int n => cases h
    | nan => cases h
    | posInf => cases h
    | negInf => cases h
  | str s => cases h
  | arr l => cases h
  | obj fs => cases h

theorem JsVal.Distinct.lasts (hd : v.Distinct) (h : v.settled.getD .undefined = v) : v.Lasts := by
  cases hv : v.settled with
  | none => exact .inl (settled_none hv)
  | some w =>
    rw [hv, Option.getD_some] at h
    exact .inr (hd.settled_iff.1 (hv.trans (congrArg some h)))

theorem Plan.assign_same (hk : k ∉ planKeys) (hv : P.fields.get? k = some v) : P.assign k v = P := by
  rw [assign, dif_neg hk]
  apply eq_of_fields
  · rfl
  · rfl
  · rfl
  · rfl
  · rfl
  · rfl
  · rfl
  · rfl
  · rfl
  · exact Dict.set_get? hv

theorem Plan.permitted_eq (h : ∀ k ∈ permissions, P.fields.get? k = some (.bool true)) : P.permitted = P := by
  have hown : ∀ k ∈ permissions, k ∉ planKeys := by decide
  have hsame : ∀ k ∈ permissions, P.assign k (.bool true) = P := fun k hk => assign_same (hown k hk) (h k hk)
  simp only [permissions, List.forall_mem_cons] at hsame
  obtain ⟨hsocket, hexec, hmodules, hssh, -⟩ := hsame
  rw [permitted, hsocket, hexec, hmodules, hssh]

theorem Plan.permitted_fields (P : Plan) : P.permitted.fields = (((P.fields.set "plan_custom_socket" (.bool true)).set
    "plan_sys_exec" (.bool true)).set "plan_local_native_modules" (.bool true)).set "plan_ssh" (.bool true) := rfl

theorem Plan.get?_permitted (P : Plan) (k : String) : P.permitted.fields.get? k =
    if k ∈ permissions then some (.bool true) else P.fields.get? k := by
  rw [permitted_fields, Dict.get?_set, Dict.get?_set, Dict.get?_set, Dict.get?_set]
  simp only [permissions, List.mem_cons, List.not_mem_nil, or_false]
  split
  · next h => rw [if_pos (.inr (.inr (.inr h)))]
  · next hssh =>
    split
    · next h => rw [if_pos (.inr (.inr (.inl h)))]
    · next hmodules =>
      split
      · next h => rw [if_pos (.inr (.inl h))]
      · next hexec =>
        split
        · next h => rw [if_pos (.inl h)]
        · next hsocket =>
          rw [if_neg]
          rintro (h | h | h | h)
          · exact hsocket h
          · exact hexec h
          · exact hmodules h
          · exact hssh h

theorem Plan.Durable.settle (h : P.Durable n) : P.settle = P := by
  apply eq_of_fields
  · rfl
  · rfl
  · rfl
  · change P.suspended.settled.getD _ = _
    rw [h.suspended.settled, Option.getD_some]
  · exact h.maxDomainCount.settled
  · exact h.maxUserCount.settled
  · exact h.canCreatePlan.settled
  · exact h.canCreateUser.settled
  · exact h.planMaximums.settle
  · exact h.fields.settle

theorem User.Durable.settle (h : U.Durable) : U.settle = U := by
  apply eq_of_fields
  · rfl
  · rfl
  · rfl
  · rfl
  · change U.suspended.settled.getD _ = _
    rw [h.suspended.settled, Option.getD_some]
  · exact h.fields.settle

theorem Domain.Durable.settle (h : D.Durable) : D.settle = D :=
  eq_of_fields rfl rfl (JsVal.Storable.settle h)

theorem mapVals_eq_self {α : Type} {d : Dict String α} {f : String → α → α} (h : ∀ k a, d.get? k = some a → f k a = a) :
    d.mapVals f = d := by
  apply Dict.ext_entries
  have hone : ∀ e ∈ d.entries, (e.1, f e.1 e.2) = id e := by
    intro e he
    rw [h e.1 e.2 (Dict.get?_eq_some.2 he)]
    rfl
  exact (List.map_congr_left hone).trans (List.map_id _)

theorem Store.Durable.settle (h : s.Durable) : s.settle = s := by
  have hplans : (s.plans.mapVals fun _ P => P.settle) = s.plans := mapVals_eq_self fun n P hP => (h.plans n P hP).settle
  have husers : (s.users.mapVals fun _ U => U.settle) = s.users := mapVals_eq_self fun n U hU => (h.users n U hU).settle
  have hdomains : (s.domains.mapVals fun _ D => D.map Domain.settle) = s.domains := by
    apply mapVals_eq_self
    intro n D hD
    cases D with
    | none => rfl
    | some D => exact congrArg some (h.domains n D hD).settle
  have hunlimited : s.plans.modify unlimitedPlanName Plan.permitted = s.plans :=
    Dict.modify_eq_self fun P hP => Plan.permitted_eq ((h.plans _ P hP).permitted rfl)
  have hconfig : reread s.config = s.config := h.config.settle
  rw [Store.settle, hplans, husers, hdomains, hunlimited, hconfig]

/-! The properties of a record are those of its own fields and the others. -/

theorem JsVal.Lasts.distinct (h : v.Lasts) : v.Distinct := by
  rcases h with rfl | h
  · exact .undefined
  · exact h.distinct

theorem KeySet.distinct_toVal (ks : KeySet) : ks.toVal.Distinct := by
  rw [KeySet.toVal_entries]
  refine .obj _ (ks.mapVals _).nodup fun f hf => ?_
  obtain ⟨e, -, rfl⟩ := List.mem_map.1 hf
  exact .num _

theorem JsVal.Distinct.of_mem {fs : List (String × JsVal)} (h : (JsVal.obj fs).Distinct) : ∀ f ∈ fs, f.2.Distinct := by
  cases h with
  | obj _ _ hfields => exact hfields

/-- What a plan is made of has no name twice. -/
theorem Plan.distinct_toObj (hdomains : P.maxDomainCount.Distinct) (husers : P.maxUserCount.Distinct)
    (hplan : P.canCreatePlan.Distinct) (huser : P.canCreateUser.Distinct)
    (hmaximums : (JsVal.obj P.planMaximums.entries).Distinct) (hsuspended : P.suspended.Distinct)
    (hfields : ∀ f ∈ P.fields.entries, f.2.Distinct) : (JsVal.obj P.toObj.entries).Distinct := by
  refine .obj _ P.toObj.nodup fun f hf => ?_
  rcases List.mem_append.1 hf with hf | hf
  · have hall : ∀ f ∈ P.own, f.2.Distinct := by
      simp only [own, List.forall_mem_cons]
      exact ⟨.str _, .str _, hdomains, husers, hplan, huser, hmaximums, P.users.distinct_toVal, hsuspended,
        fun f hf => absurd hf List.not_mem_nil⟩
    exact hall f hf
  · exact hfields f hf

theorem Plan.Durable.distinct (h : P.Durable n) : (JsVal.obj P.toObj.entries).Distinct :=
  distinct_toObj h.maxDomainCount.distinct h.maxUserCount.distinct h.canCreatePlan.distinct h.canCreateUser.distinct
    h.planMaximums.distinct h.suspended.distinct fun f hf => (h.fields.of_mem f hf).distinct

theorem User.Durable.distinct (h : U.Durable) : (JsVal.obj U.toObj.entries).Distinct := by
  refine .obj _ U.toObj.nodup fun f hf => ?_
  rcases List.mem_append.1 hf with hf | hf
  · have hall : ∀ f ∈ U.own, f.2.Distinct := by
      simp only [own, List.forall_mem_cons]
      exact ⟨.str _, U.domains.distinct_toVal, .str _, U.subPlans.distinct_toVal, h.suspended.distinct,
        fun f hf => absurd hf List.not_mem_nil⟩
    exact hall f hf
  · exact (h.fields.of_mem f hf).distinct

theorem Domain.Durable.distinct (h : D.Durable) : (JsVal.obj D.toObj.entries).Distinct := by
  refine .obj _ D.toObj.nodup fun f hf => ?_
  rw [toObj_entries] at hf
  simp only [List.mem_cons] at hf
  rcases hf with rfl | rfl | hf
  · exact .str _
  · exact .str _
  · exact (JsVal.Storable.of_mem h f hf).distinct

theorem Store.Durable.distinct (h : s.Durable) : s.Distinct where
  plans n P hP := (h.plans n P hP).distinct
  users n U hU := (h.users n U hU).distinct
  domains n D hD := (h.domains n D hD).distinct
  config := JsVal.Storable.distinct h.config

/-- Whether the value is there or not, if it comes back as it was. -/
theorem JsVal.Distinct.storable {w : JsVal} (hd : v.Distinct) (hw : w ≠ .undefined) (h : v.settled.getD w = v) :
    v.Storable := by
  cases hv : v.settled with
  | none =>
    rw [hv, Option.getD_none] at h
    exact absurd (h.trans (settled_none hv)) hw
  | some x =>
    rw [hv, Option.getD_some] at h
    exact hd.settled_iff.1 (hv.trans (congrArg some h))

theorem storable_of_settle {o : Obj} (hd : (JsVal.obj o.entries).Distinct) (h : reread o = o) :
    (JsVal.obj o.entries).Storable :=
  hd.settled_iff.1 ((settled_entries o).trans (by rw [h]))

/-- The permissions are apart from the fields of their own. -/
structure Plan.SameOwn (P Q : Plan) : Prop where
  suspended : P.suspended = Q.suspended
  maxDomainCount : P.maxDomainCount = Q.maxDomainCount
  maxUserCount : P.maxUserCount = Q.maxUserCount
  canCreatePlan : P.canCreatePlan = Q.canCreatePlan
  canCreateUser : P.canCreateUser = Q.canCreateUser
  planMaximums : P.planMaximums = Q.planMaximums

/-- A plan that comes back as it was is durable. -/
theorem Plan.durable_of_settle (hd : (JsVal.obj P.toObj.entries).Distinct)
    (h : (if n = unlimitedPlanName then P.settle.permitted else P.settle) = P) : P.Durable n := by
  have hvalues : ∀ k v, P.toObj.get? k = some v → v.Distinct := fun k v hv => hd.of_mem (k, v) (Dict.get?_eq_some.1 hv)
  have hown : SameOwn P.settle P := by
    have hpermitted : SameOwn P.settle P.settle.permitted := ⟨rfl, rfl, rfl, rfl, rfl, rfl⟩
    split at h
    · rwa [h] at hpermitted
    · rw [h]
      exact ⟨rfl, rfl, rfl, rfl, rfl, rfl⟩
  have hfields : ∀ k v, P.fields.get? k = some v → v.Storable := by
    intro k v hv
    have hdistinct : v.Distinct := hd.of_mem (k, v) (List.mem_append_right _ (Dict.get?_eq_some.1 hv))
    have hsettled : (reread P.fields).get? k = some v → v.Storable := by
      intro hs
      rw [get?_reread, hv] at hs
      exact hdistinct.settled_iff.1 hs
    split at h
    · have hget : P.settle.permitted.fields.get? k = some v := by rw [h, hv]
      rw [get?_permitted] at hget
      split at hget
      · cases hget
        exact .bool true
      · exact hsettled hget
    · have hget : P.settle.fields.get? k = some v := by rw [h, hv]
      exact hsettled hget
  refine ⟨?_, ?_, ?_, ?_, ?_, ?_, .of_entries hfields, fun hn k hk => ?_⟩
  · exact (hvalues "suspended" _ rfl).storable (by simp) hown.suspended
  · exact (hvalues "maxDomainCount" _ rfl).lasts hown.maxDomainCount
  · exact (hvalues "maxUserCount" _ rfl).lasts hown.maxUserCount
  · exact (hvalues "canCreatePlan" _ rfl).lasts hown.canCreatePlan
  · exact (hvalues "canCreateUser" _ rfl).lasts hown.canCreateUser
  · exact storable_of_settle (hvalues "planMaximums" _ rfl) hown.planMaximums
  · rw [if_pos hn] at h
    rw [← h, get?_permitted, if_pos hk]

theorem User.durable_of_settle (hd : (JsVal.obj U.toObj.entries).Distinct) (h : U.settle = U) : U.Durable := by
  have hvalues : ∀ k v, U.toObj.get? k = some v → v.Distinct := fun k v hv => hd.of_mem (k, v) (Dict.get?_eq_some.1 hv)
  have hsuspended : U.settle.suspended = U.suspended := by rw [h]
  have hfields : U.settle.fields = U.fields := by rw [h]
  refine ⟨(hvalues "suspended" _ rfl).storable (by simp) hsuspended, storable_of_settle ?_ hfields⟩
  exact .obj _ U.fields.nodup fun f hf => hd.of_mem f (List.mem_append_right _ hf)

theorem Domain.durable_of_settle (hd : (JsVal.obj D.toObj.entries).Distinct) (h : D.settle = D) : D.Durable := by
  have hfields : D.settle.fields = D.fields := by rw [h]
  refine storable_of_settle (.obj _ D.fields.nodup fun f hf => hd.of_mem f ?_) hfields
  rw [toObj_entries]
  exact List.mem_cons_of_mem _ (List.mem_cons_of_mem _ hf)

namespace Store

/-- The stores that are read as they were written. -/
theorem read_saved_iff (h : s.Distinct) : readDB s.saved = .ok s ↔ s.Durable := by
  constructor
  · intro hs
    rw [read_saved h] at hs
    have hsame : s.settle = s := Except.ok.inj hs
    have hplans : s.settle.plans = s.plans := by rw [hsame]
    have husers : s.settle.users = s.users := by rw [hsame]
    have hdomains : s.settle.domains = s.domains := by rw [hsame]
    have hconfig : s.settle.config = s.config := by rw [hsame]
    refine ⟨fun n P hP => ?_, fun n U hU => ?_, fun n D hD => ?_, storable_of_settle h.config hconfig⟩
    · apply Plan.durable_of_settle (h.plans n P hP)
      have hget : s.settle.plans.get? n = some P := hplans ▸ hP
      rw [settle, Dict.get?_modify, Dict.get?_mapVals, hP] at hget
      split at hget
      · next he =>
        rw [if_pos he]
        exact Option.some.inj hget
      · next hne =>
        rw [if_neg hne]
        exact Option.some.inj hget
    · apply User.durable_of_settle (h.users n U hU)
      have hget : s.settle.users.get? n = some U := husers ▸ hU
      rw [settle, Dict.get?_mapVals, hU] at hget
      exact Option.some.inj hget
    · apply Domain.durable_of_settle (h.domains n D hD)
      have hget : s.settle.domains.get? n = some (some D) := hdomains ▸ hD
      rw [settle, Dict.get?_mapVals, hD] at hget
      exact Option.some.inj (Option.some.inj hget)
  · intro hs
    rw [read_saved h, hs.settle]

theorem durableCalls_sample : Reached (fun _ c => DurableCall c) (installed.run sampleCalls) := by
  have hempty : (JsVal.obj (Dict.empty : Obj).entries).Storable := .empty
  have hopts : (JsVal.obj (planOpts 5 5).entries).Storable := .limits .empty rfl
  have hgold : "gold" = unlimitedPlanName → ∀ k ∈ permissions, (planOpts 5 5).get? k = some (.bool true) :=
    fun he => absurd he (by decide)
  exact Runs.Reached.start.run ⟨hempty, ⟨hopts, hgold⟩, hempty, hempty, trivial⟩

theorem durable_sample : (installed.run sampleCalls).Durable :=
  durableCalls_sample.keeps durable_installed fun _ _ hs hc => hs.exec hc

/-- The sample with a plan whose users were not counted in the form. -/
def boundless : Store :=
  (installed.run sampleCalls).modifyPlan "gold" fun P => { P with maxUserCount := .num .nan }

theorem distinct_boundless : boundless.Distinct := by
  have hdurable := durable_sample
  refine ⟨fun n P hP => ?_, hdurable.distinct.users, hdurable.distinct.domains, hdurable.distinct.config⟩
  rw [boundless, modifyPlan, Dict.get?_modify] at hP
  split at hP
  · obtain ⟨Q, hQ, rfl⟩ := Option.map_eq_some_iff.1 hP
    have hplan := hdurable.plans _ Q hQ
    exact Plan.distinct_toObj hplan.maxDomainCount.distinct (.num .nan) hplan.canCreatePlan.distinct
      hplan.canCreateUser.distinct hplan.planMaximums.distinct hplan.suspended.distinct
      fun f hf => (hplan.fields.of_mem f hf).distinct
  · exact (hdurable.plans n P hP).distinct

theorem read_saved_iff_sample : readDB (installed.run sampleCalls).saved = .ok (installed.run sampleCalls) ∧
    readDB boundless.saved ≠ .ok boundless := by
  refine ⟨(read_saved_iff durable_sample.distinct).2 durable_sample, fun hread => ?_⟩
  have hdurable := (read_saved_iff distinct_boundless).1 hread
  obtain ⟨P, hP, hnan⟩ := Option.map_eq_some_iff.1
    (show (boundless.plans.get? "gold").map Plan.maxUserCount = some (.num .nan) from rfl)
  rcases (hdurable.plans "gold" P hP).maxUserCount with hlost | hkept
  · rw [hnan] at hlost
    cases hlost
  · rw [hnan] at hkept
    cases hkept

end Store

end Settle

end JXPanel

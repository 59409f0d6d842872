import JXPanel.Value

namespace JXPanel
set_option autoImplicit true

/-- The properties of a plan that have a field of their own. -/
def planKeys : List String :=
  ["name", "owner", "users", "suspended", "maxDomainCount", "maxUserCount", "canCreatePlan",
    "canCreateUser", "planMaximums"]

def userKeys : List String := ["name", "plan", "domains", "subPlans", "suspended"]

def domainKeys : List String := ["name", "owner"]

/-- A plan record. Every property without a field of its own is kept in `fields`. -/
structure Plan where
  name : String
  owner : String
  users : KeySet
  suspended : JsVal
  maxDomainCount : JsVal
  maxUserCount : JsVal
  canCreatePlan : JsVal
  canCreateUser : JsVal
  planMaximums : Obj
  fields : Obj
  extra : ∀ k ∈ fields, k ∉ planKeys

structure User where
  name : String
  plan : String
  domains : KeySet
  subPlans : KeySet
  suspended : JsVal
  fields : Obj
  extra : ∀ k ∈ fields, k ∉ userKeys

structure Domain where
  name : String
  owner : String
  fields : Obj
  extra : ∀ k ∈ fields, k ∉ domainKeys

/-- The database object. A domain that is being moved is `null` for a while. -/
structure Store where
  plans : Dict String Plan
  users : Dict String User
  domains : Dict String (Option Domain)
  config : Obj

def superUser : String := "%$$SUPER_USER$$%"

def unlimitedPlanName : String := "Unlimited"

def defaultMaximum : JsVal := .num (.int (-1))

def KeySet.toVal (ks : KeySet) : JsVal := .obj (ks.keys.map (fun k => (k, JsVal.ofNat 1)))

theorem extra_set {keys : List String} {o : Obj} {k : String} {v : JsVal}
    (h : ∀ x ∈ o, x ∉ keys) (hk : k ∉ keys) : ∀ x ∈ o.set k v, x ∉ keys := by
  intro x hx
  rcases Dict.mem_set.1 hx with rfl | hx
  · exact hk
  · exact h x hx

theorem extra_empty {keys : List String} : ∀ x ∈ (Dict.empty : Obj), x ∉ keys :=
  fun x hx => (Dict.not_mem_empty x hx).elim

namespace Plan

def assignOwn (p : Plan) (k : String) (v : JsVal) : Plan :=
  match k with
  | "name" => { p with name := v.toKey }
  | "owner" => { p with owner := v.toKey }
  | "users" => { p with users := v.toKeySet }
  | "suspended" => { p with suspended := v }
  | "maxDomainCount" => { p with maxDomainCount := v }
  | "maxUserCount" => { p with maxUserCount := v }
  | "canCreatePlan" => { p with canCreatePlan := v }
  | "canCreateUser" => { p with canCreateUser := v }
  | "planMaximums" => { p with planMaximums := v.toObj }
  | _ => p

/-- `plan[k] = v`. -/
def assign (p : Plan) (k : String) (v : JsVal) : Plan :=
  if h : k ∈ planKeys then p.assignOwn k v
  else { p with fields := p.fields.set k v, extra := extra_set p.extra h }

/-- `plan[k]`. -/
def get (p : Plan) (k : String) : JsVal :=
  match k with
  | "name" => .str p.name
  | "owner" => .str p.owner
  | "users" => p.users.toVal
  | "suspended" => p.suspended
  | "maxDomainCount" => p.maxDomainCount
  | "maxUserCount" => p.maxUserCount
  | "canCreatePlan" => p.canCreatePlan
  | "canCreateUser" => p.canCreateUser
  | "planMaximums" => .obj p.planMaximums.entries
  | _ => prop p.fields k

def extend (p : Plan) (ext : Obj) : Plan := ext.foldl assign p

/-- Only one property differs. -/
structure SameBut (k : String) (p p' : Plan) : Prop where
  name : k ≠ "name" → p'.name = p.name
  owner : k ≠ "owner" → p'.owner = p.owner
  users : k ≠ "users" → p'.users = p.users
  suspended : k ≠ "suspended" → p'.suspended = p.suspended
  maxDomainCount : k ≠ "maxDomainCount" → p'.maxDomainCount = p.maxDomainCount
  maxUserCount : k ≠ "maxUserCount" → p'.maxUserCount = p.maxUserCount
  canCreatePlan : k ≠ "canCreatePlan" → p'.canCreatePlan = p.canCreatePlan
  canCreateUser : k ≠ "canCreateUser" → p'.canCreateUser = p.canCreateUser
  planMaximums : k ≠ "planMaximums" → p'.planMaximums = p.planMaximums
  fields : p'.fields = p.fields

theorem assignOwn_same (p : Plan) (k : String) (v : JsVal) : SameBut k p (p.assignOwn k v) := by
  unfold assignOwn
  split <;> constructor <;> first | exact fun _ => rfl | exact fun h => absurd rfl h | rfl

end Plan

namespace User

def assignOwn (u : User) (k : String) (v : JsVal) : User :=
  match k with
  | "name" => { u with name := v.toKey }
  | "plan" => { u with plan := v.toKey }
  | "domains" => { u with domains := v.toKeySet }
  | "subPlans" => { u with subPlans := v.toKeySet }
  | "suspended" => { u with suspended := v }
  | _ => u

def assign (u : User) (k : String) (v : JsVal) : User :=
  if h : k ∈ userKeys then u.assignOwn k v
  else { u with fields := u.fields.set k v, extra := extra_set u.extra h }

def extend (u : User) (ext : Obj) : User := ext.foldl assign u

/-- Only one property differs. -/
structure SameBut (k : String) (u u' : User) : Prop where
  name : k ≠ "name" → u'.name = u.name
  plan : k ≠ "plan" → u'.plan = u.plan
  domains : k ≠ "domains" → u'.domains = u.domains
  subPlans : k ≠ "subPlans" → u'.subPlans = u.subPlans
  suspended : k ≠ "suspended" → u'.suspended = u.suspended
  fields : u'.fields = u.fields

theorem assignOwn_same (u : User) (k : String) (v : JsVal) : SameBut k u (u.assignOwn k v) := by
  unfold assignOwn
  split <;> constructor <;> first | exact fun _ => rfl | exact fun h => absurd rfl h | rfl

end User

namespace Domain

def assignOwn (d : Domain) (k : String) (v : JsVal) : Domain :=
  match k with
  | "name" => { d with name := v.toKey }
  | "owner" => { d with owner := v.toKey }
  | _ => d

def assign (d : Domain) (k : String) (v : JsVal) : Domain :=
  if h : k ∈ domainKeys then d.assignOwn k v
  else { d with fields := d.fields.set k v, extra := extra_set d.extra h }

def extend (d : Domain) (ext : Obj) : Domain := ext.foldl assign d

/-- Only one property differs. -/
structure SameBut (k : String) (d d' : Domain) : Prop where
  name : k ≠ "name" → d'.name = d.name
  owner : k ≠ "owner" → d'.owner = d.owner
  fields : d'.fields = d.fields

theorem assignOwn_same (d : Domain) (k : String) (v : JsVal) : SameBut k d (d.assignOwn k v) := by
  unfold assignOwn
  split <;> constructor <;> first | exact fun _ => rfl | exact fun h => absurd rfl h | rfl

/-- The record as an object, to be copied into a new one. -/
def toObj (d : Domain) : Obj :=
  d.fields.foldl Dict.set ((Dict.empty.set "name" (.str d.name)).set "owner" (.str d.owner))

end Domain

/-- `checkSet`: the value of a property that must be there, `false` being one if allowed. -/
def checkSet (name : String) (sub : Obj) (allowFalse : Bool) : Js JsVal :=
  let v := prop sub name
  if v.truthy || (allowFalse && JsVal.strictEq (.bool false) v) then .ok v
  else .error (.thrown (name ++ " is required"))

/-- `new Plan(name, owner_user, opts)` for an owner with the given name. -/
def Plan.new (name owner : String) (opts : Obj) : Js Plan := do
  let maxDomainCount ← checkSet "maxDomainCount" opts false
  let maxUserCount ← checkSet "maxUserCount" opts false
  let canCreatePlan ← checkSet "canCreatePlan" opts true
  let canCreateUser ← checkSet "canCreateUser" opts true
  let planMaximums ← checkSet "planMaximums" opts false
  let base : Plan :=
    { name, owner, users := .empty, suspended := .bool false, maxDomainCount, maxUserCount
      canCreatePlan, canCreateUser, planMaximums := planMaximums.toObj
      fields := .empty, extra := extra_empty }
  return base.extend opts

/-- `new User(name, parent_plan, opts)` for a parent plan with the given name. -/
def User.new (name plan : String) (opts : Obj) : User :=
  User.extend
    { name, plan, domains := .empty, subPlans := .empty, suspended := .bool false
      fields := .empty, extra := extra_empty } opts

/-- `new Domain(name, owner_user, opts)` for an owner with the given name. -/
def Domain.new (name owner : String) (opts : Obj) : Domain :=
  Domain.extend { name, owner, fields := .empty, extra := extra_empty } opts

namespace Store

def empty : Store := ⟨.empty, .empty, .empty, .empty⟩

/-- `Domains[name]`, where `null` is as good as absent. -/
def getDomain? (s : Store) (name : String) : Option Domain := (s.domains.get? name).join

def setPlan (s : Store) (name : String) (p : Plan) : Store :=
  { s with plans := s.plans.set name p }

def setUser (s : Store) (name : String) (u : User) : Store :=
  { s with users := s.users.set name u }

def modifyPlan (s : Store) (name : String) (f : Plan → Plan) : Store :=
  { s with plans := s.plans.modify name f }

def modifyUser (s : Store) (name : String) (f : User → User) : Store :=
  { s with users := s.users.modify name f }

def setDomain (s : Store) (name : String) (d : Option Domain) : Store :=
  { s with domains := s.domains.set name d }

end Store

/-- What `extend` leaves in a property: the new value, if the extension has one. -/
def overlay {α : Type} (ext : Obj) (k : String) (f : JsVal → α) (old : α) : α :=
  ((ext.get? k).map f).getD old

theorem overlay_absent {ext : Obj} (h : k ∉ ext) (f : JsVal → α) (old : α) :
    overlay ext k f old = old := by
  rw [overlay, Dict.get?_eq_none.2 h]
  rfl

theorem overlay_present {ext : Obj} (h : ext.get? k = some v) (f : JsVal → α) (old : α) :
    overlay ext k f old = f v := by
  rw [overlay, h]
  rfl

namespace Plan
variable (p : Plan) (ext : Obj)

theorem extend_field {α : Type} (π : Plan → α) (k₀ : String) (f : JsVal → α)
    (hself : ∀ r v, π (assign r k₀ v) = f v)
    (hown : ∀ r k v, k ≠ k₀ → π (assignOwn r k v) = π r)
    (hrest : ∀ (r : Plan) fs h, π { r with fields := fs, extra := h } = π r) :
    π (p.extend ext) = overlay ext k₀ f (π p) := by
  refine Dict.foldl_project assign π k₀ f hself (fun r k v hk => ?_) ext p
  by_cases h : k ∈ planKeys
  · rw [assign, dif_pos h]
    exact hown r k v hk
  · rw [assign, dif_neg h]
    exact hrest r _ _

theorem extend_name : (p.extend ext).name = overlay ext "name" JsVal.toKey p.name :=
  extend_field p ext name "name" _ (fun _ _ => rfl)
    (fun r k v hk => (r.assignOwn_same k v).name hk) fun _ _ _ => rfl

theorem extend_owner : (p.extend ext).owner = overlay ext "owner" JsVal.toKey p.owner :=
  extend_field p ext owner "owner" _ (fun _ _ => rfl)
    (fun r k v hk => (r.assignOwn_same k v).owner hk) fun _ _ _ => rfl

theorem extend_users : (p.extend ext).users = overlay ext "users" JsVal.toKeySet p.users :=
  extend_field p ext users "users" _ (fun _ _ => rfl)
    (fun r k v hk => (r.assignOwn_same k v).users hk) fun _ _ _ => rfl

theorem extend_suspended : (p.extend ext).suspended = overlay ext "suspended" id p.suspended :=
  extend_field p ext suspended "suspended" _ (fun _ _ => rfl)
    (fun r k v hk => (r.assignOwn_same k v).suspended hk) fun _ _ _ => rfl

theorem extend_maxUserCount :
    (p.extend ext).maxUserCount = overlay ext "maxUserCount" id p.maxUserCount :=
  extend_field p ext maxUserCount "maxUserCount" _ (fun _ _ => rfl)
    (fun r k v hk => (r.assignOwn_same k v).maxUserCount hk) fun _ _ _ => rfl

theorem extend_maxDomainCount :
    (p.extend ext).maxDomainCount = overlay ext "maxDomainCount" id p.maxDomainCount :=
  extend_field p ext maxDomainCount "maxDomainCount" _ (fun _ _ => rfl)
    (fun r k v hk => (r.assignOwn_same k v).maxDomainCount hk) fun _ _ _ => rfl

theorem extend_canCreateUser :
    (p.extend ext).canCreateUser = overlay ext "canCreateUser" id p.canCreateUser :=
  extend_field p ext canCreateUser "canCreateUser" _ (fun _ _ => rfl)
    (fun r k v hk => (r.assignOwn_same k v).canCreateUser hk) fun _ _ _ => rfl

theorem extend_canCreatePlan :
    (p.extend ext).canCreatePlan = overlay ext "canCreatePlan" id p.canCreatePlan :=
  extend_field p ext canCreatePlan "canCreatePlan" _ (fun _ _ => rfl)
    (fun r k v hk => (r.assignOwn_same k v).canCreatePlan hk) fun _ _ _ => rfl

theorem extend_planMaximums :
    (p.extend ext).planMaximums = overlay ext "planMaximums" JsVal.toObj p.planMaximums :=
  extend_field p ext planMaximums "planMaximums" _ (fun _ _ => rfl)
    (fun r k v hk => (r.assignOwn_same k v).planMaximums hk) fun _ _ _ => rfl

end Plan

namespace User
variable (u : User) (ext : Obj)

theorem extend_field {α : Type} (π : User → α) (k₀ : String) (f : JsVal → α)
    (hself : ∀ r v, π (assign r k₀ v) = f v)
    (hown : ∀ r k v, k ≠ k₀ → π (assignOwn r k v) = π r)
    (hrest : ∀ (r : User) fs h, π { r with fields := fs, extra := h } = π r) :
    π (u.extend ext) = overlay ext k₀ f (π u) := by
  refine Dict.foldl_project assign π k₀ f hself (fun r k v hk => ?_) ext u
  by_cases h : k ∈ userKeys
  · rw [assign, dif_pos h]
    exact hown r k v hk
  · rw [assign, dif_neg h]
    exact hrest r _ _

theorem extend_name : (u.extend ext).name = overlay ext "name" JsVal.toKey u.name :=
  extend_field u ext name "name" _ (fun _ _ => rfl)
    (fun r k v hk => (r.assignOwn_same k v).name hk) fun _ _ _ => rfl

theorem extend_plan : (u.extend ext).plan = overlay ext "plan" JsVal.toKey u.plan :=
  extend_field u ext plan "plan" _ (fun _ _ => rfl)
    (fun r k v hk => (r.assignOwn_same k v).plan hk) fun _ _ _ => rfl

theorem extend_domains : (u.extend ext).domains = overlay ext "domains" JsVal.toKeySet u.domains :=
  extend_field u ext domains "domains" _ (fun _ _ => rfl)
    (fun r k v hk => (r.assignOwn_same k v).domains hk) fun _ _ _ => rfl

theorem extend_subPlans :
    (u.extend ext).subPlans = overlay ext "subPlans" JsVal.toKeySet u.subPlans :=
  extend_field u ext subPlans "subPlans" _ (fun _ _ => rfl)
    (fun r k v hk => (r.assignOwn_same k v).subPlans hk) fun _ _ _ => rfl

end User

namespace Domain

theorem extend_field {α : Type} (d : Domain) (ext : Obj) (π : Domain → α) (k₀ : String) (f : JsVal → α)
    (hself : ∀ r v, π (assign r k₀ v) = f v)
    (hown : ∀ r k v, k ≠ k₀ → π (assignOwn r k v) = π r)
    (hrest : ∀ (r : Domain) fs h, π { r with fields := fs, extra := h } = π r) :
    π (d.extend ext) = overlay ext k₀ f (π d) := by
  refine Dict.foldl_project assign π k₀ f hself (fun r k v hk => ?_) ext d
  by_cases h : k ∈ domainKeys
  · rw [assign, dif_pos h]
    exact hown r k v hk
  · rw [assign, dif_neg h]
    exact hrest r _ _

theorem extend_owner (d : Domain) (ext : Obj) :
    (d.extend ext).owner = overlay ext "owner" JsVal.toKey d.owner :=
  extend_field d ext owner "owner" _ (fun _ _ => rfl) (fun r k v hk => (r.assignOwn_same k v).owner hk) fun _ _ _ => rfl

theorem extend_name (d : Domain) (ext : Obj) :
    (d.extend ext).name = overlay ext "name" JsVal.toKey d.name :=
  extend_field d ext name "name" _ (fun _ _ => rfl) (fun r k v hk => (r.assignOwn_same k v).name hk) fun _ _ _ => rfl

theorem toObj_owner (d : Domain) : d.toObj.get? "owner" = some (.str d.owner) := by
  have hn : "owner" ∉ d.fields := fun h => d.extra _ h (by decide)
  have hp := Dict.foldl_project (Dict.set : Obj → String → JsVal → Obj) (fun o => o.get? "owner")
    "owner" some (fun r v => Dict.get?_set_self r _ v)
    (fun r k v hk => Dict.get?_set_ne r v (Ne.symm hk)) d.fields
    ((Dict.empty.set "name" (.str d.name)).set "owner" (.str d.owner))
  rw [Dict.get?_eq_none.2 hn] at hp
  exact hp.trans (Dict.get?_set_self _ _ _)

theorem new_owner (name owner : String) (opts : Obj) :
    (Domain.new name owner opts).owner = overlay opts "owner" JsVal.toKey owner :=
  extend_owner _ _

/-- Copying a domain record keeps its owner, whoever is named as the new one. -/
theorem new_toObj_owner (name owner : String) (d : Domain) :
    (Domain.new name owner d.toObj).owner = d.owner := by
  rw [new_owner, overlay_present d.toObj_owner]
  rfl

end Domain
end JXPanel

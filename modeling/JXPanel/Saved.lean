import JXPanel.Base64
import JXPanel.Json
import JXPanel.Transfers

namespace JXPanel
set_option autoImplicit true

namespace JsVal

mutual
/-- What `JSON.stringify` writes, if anything: what is `undefined` is left out of an object and is `null` in an array. -/
def toJson : JsVal → Option (Json.Value Int)
  | undefined => none
  | null => some .null
  | bool b => some (.bool b)
  | num (.int n) => some (.num n)
  | num .nan => some .null
  | num .posInf => some .null
  | num .negInf => some .null
  | str s => some (.str s)
  | arr l => some (.arr (itemsToJson l))
  | obj fs => some (.obj (fieldsToJson fs))

def itemsToJson : List JsVal → List (Json.Value Int)
  | [] => []
  | v :: l => v.toJson.getD .null :: itemsToJson l

def fieldsToJson : List (String × JsVal) → List (String × Json.Value Int)
  | [] => []
  | (k, v) :: fs =>
    match v.toJson with
    | none => fieldsToJson fs
    | some j => (k, j) :: fieldsToJson fs
end

mutual
def ofJson : Json.Value Int → JsVal
  | .null => null
  | .bool b => bool b
  | .num n => num (.int n)
  | .str s => str s
  | .arr l => arr (itemsOfJson l)
  | .obj fs => obj (fieldsOfJson fs)

def itemsOfJson : List (Json.Value Int) → List JsVal
  | [] => []
  | j :: l => ofJson j :: itemsOfJson l

def fieldsOfJson : List (String × Json.Value Int) → List (String × JsVal)
  | [] => []
  | (k, j) :: fs => (k, ofJson j) :: fieldsOfJson fs
end

mutual
/-- The value that is there when the store has been read again, if any is. -/
def settled : JsVal → Option JsVal
  | undefined => none
  | null => some null
  | bool b => some (bool b)
  | num (.int n) => some (num (.int n))
  | num .nan => some null
  | num .posInf => some null
  | num .negInf => some null
  | str s => some (str s)
  | arr l => some (arr (settledItems l))
  | obj fs => some (obj (settledFields fs))

def settledItems : List JsVal → List JsVal
  | [] => []
  | v :: l => v.settled.getD null :: settledItems l

def settledFields : List (String × JsVal) → List (String × JsVal)
  | [] => []
  | (k, v) :: fs =>
    match v.settled with
    | none => settledFields fs
    | some w => (k, w) :: settledFields fs
end

/-- No object has two properties of one name. -/
inductive Distinct : JsVal → Prop
  | undefined : Distinct .undefined
  | null : Distinct .null
  | bool (b : Bool) : Distinct (.bool b)
  | num (n : JsNum) : Distinct (.num n)
  | str (s : String) : Distinct (.str s)
  | arr (l : List JsVal) (hitems : ∀ v ∈ l, Distinct v) : Distinct (.arr l)
  | obj (fs : List (String × JsVal)) (hkeys : (fs.map Prod.fst).Nodup) (hfields : ∀ f ∈ fs, Distinct f.2) :
    Distinct (.obj fs)

/-- A value that JSON has a form for. -/
inductive Storable : JsVal → Prop
  | null : Storable .null
  | bool (b : Bool) : Storable (.bool b)
  | int (n : Int) : Storable (.num (.int n))
  | str (s : String) : Storable (.str s)
  | arr (l : List JsVal) (hitems : ∀ v ∈ l, Storable v) : Storable (.arr l)
  | obj (fs : List (String × JsVal)) (hkeys : (fs.map Prod.fst).Nodup) (hfields : ∀ f ∈ fs, Storable f.2) :
    Storable (.obj fs)

theorem settledFields_eq (fs : List (String × JsVal)) :
    settledFields fs = fs.filterMap fun f => f.2.settled.map fun w => (f.1, w) := by
  induction fs with
  | nil => rfl
  | cons f fs ih =>
    rw [settledFields, List.filterMap_cons, ih]
    cases f.2.settled with
    | none => rfl
    | some w => rfl

mutual
theorem ofJson_toJson (v : JsVal) : v.toJson.map ofJson = v.settled := by
  cases v with
  | undefined => rfl
  | null => rfl
  | bool b => rfl
  | num n =>
    cases n with
    | int n => rfl
    | nan => rfl
    | posInf => rfl
    | negInf => rfl
  | str s => rfl
  | arr l =>
    rw [toJson, settled, Option.map_some, ofJson, itemsOfJson_itemsToJson l]
  | obj fs =>
    rw [toJson, settled, Option.map_some, ofJson, fieldsOfJson_fieldsToJson fs]

theorem itemsOfJson_itemsToJson (l : List JsVal) : itemsOfJson (itemsToJson l) = settledItems l := by
  cases l with
  | nil => rfl
  | cons v l =>
    rw [itemsToJson, itemsOfJson, settledItems, itemsOfJson_itemsToJson l, ← ofJson_toJson v]
    cases v.toJson with
    | none => rfl
    | some j => rfl

theorem fieldsOfJson_fieldsToJson (fs : List (String × JsVal)) : fieldsOfJson (fieldsToJson fs) = settledFields fs := by
  cases fs with
  | nil => rfl
  | cons f fs =>
    obtain ⟨k, v⟩ := f
    rw [fieldsToJson, settledFields, ← ofJson_toJson v]
    cases v.toJson with
    | none => exact fieldsOfJson_fieldsToJson fs
    | some j =>
      dsimp only
      rw [fieldsOfJson, fieldsOfJson_fieldsToJson fs]
      rfl
end

theorem keys_fieldsToJson (fs : List (String × JsVal)) :
    ((fieldsToJson fs).map Prod.fst).Sublist (fs.map Prod.fst) := by
  induction fs with
  | nil => exact List.Sublist.refl _
  | cons f fs ih =>
    rw [fieldsToJson, List.map_cons]
    cases f.2.toJson with
    | none => exact ih.cons _
    | some j => exact ih.cons_cons _

theorem mem_itemsToJson {l : List JsVal} {j : Json.Value Int} (h : j ∈ itemsToJson l) :
    j = .null ∨ ∃ v ∈ l, v.toJson = some j := by
  induction l with
  | nil => exact absurd h List.not_mem_nil
  | cons v l ih =>
    rw [itemsToJson] at h
    rcases List.mem_cons.1 h with rfl | h
    · cases hv : v.toJson with
      | none => exact .inl rfl
      | some j => exact .inr ⟨v, List.mem_cons_self, hv⟩
    · rcases ih h with hnull | ⟨w, hw, hj⟩
      · exact .inl hnull
      · exact .inr ⟨w, List.mem_cons_of_mem v hw, hj⟩

theorem mem_fieldsToJson {fs : List (String × JsVal)} {g : String × Json.Value Int} (h : g ∈ fieldsToJson fs) :
    ∃ f ∈ fs, f.2.toJson = some g.2 := by
  induction fs with
  | nil => exact absurd h List.not_mem_nil
  | cons f fs ih =>
    have hrest : g ∈ fieldsToJson fs → ∃ f' ∈ f :: fs, f'.2.toJson = some g.2 := by
      intro h
      obtain ⟨f', hf', hj⟩ := ih h
      exact ⟨f', List.mem_cons_of_mem f hf', hj⟩
    rw [fieldsToJson] at h
    cases hv : f.2.toJson with
    | none =>
      rw [hv] at h
      exact hrest h
    | some j =>
      rw [hv] at h
      rcases List.mem_cons.1 h with rfl | h
      · exact ⟨f, List.mem_cons_self, hv⟩
      · exact hrest h

/-- What is written is read as it was. -/
theorem Distinct.proper {v : JsVal} (h : v.Distinct) {j : Json.Value Int} (hj : v.toJson = some j) : j.Proper := by
  induction h generalizing j with
  | undefined => cases hj
  | null =>
    cases hj
    exact .null
  | bool b =>
    cases hj
    exact .bool b
  | num n =>
    cases n with
    | int n =>
      cases hj
      exact .num n
    | nan =>
      cases hj
      exact .null
    | posInf =>
      cases hj
      exact .null
    | negInf =>
      cases hj
      exact .null
  | str s =>
    cases hj
    exact .str s
  | arr l _ ih =>
    cases hj
    refine .arr _ fun j hj => ?_
    rcases mem_itemsToJson hj with rfl | ⟨v, hv, hj⟩
    · exact .null
    · exact ih v hv hj
  | obj fs hkeys _ ih =>
    cases hj
    refine .obj _ (hkeys.sublist (keys_fieldsToJson fs)) fun g hg => ?_
    obtain ⟨f, hf, hj⟩ := mem_fieldsToJson hg
    exact ih f hf hj

theorem Storable.distinct {v : JsVal} (h : v.Storable) : v.Distinct := by
  induction h with
  | null => exact .null
  | bool b => exact .bool b
  | int n => exact .num _
  | str s => exact .str s
  | arr l _ ih => exact .arr l ih
  | obj fs hkeys _ ih => exact .obj fs hkeys ih

theorem settledItems_eq (l : List JsVal) : settledItems l = l.map fun v => v.settled.getD null := by
  induction l with
  | nil => rfl
  | cons v l ih => rw [settledItems, List.map_cons, ih]

theorem Storable.settled {v : JsVal} (h : v.Storable) : v.settled = some v := by
  induction h with
  | null => rfl
  | bool b => rfl
  | int n => rfl
  | str s => rfl
  | arr l _ ih =>
    have hitems : ∀ v ∈ l, v.settled.getD JsVal.null = v := by
      intro v hv
      rw [ih v hv, Option.getD_some]
    rw [JsVal.settled, settledItems_eq, List.map_congr_left hitems, List.map_id']
  | obj fs hkeys _ ih =>
    have hfields : ∀ f ∈ fs, (f.2.settled.map fun w => (f.1, w)) = some f := by
      intro f hf
      rw [ih f hf]
      rfl
    rw [JsVal.settled, settledFields_eq, List.filterMap_congr hfields, List.filterMap_some]

/-- What keeps the whole of a list keeps each item of it. -/
theorem filterMap_self {α : Type} {g : α → Option α} {l : List α} (h : l.filterMap g = l) : ∀ x ∈ l, g x = some x := by
  induction l with
  | nil => exact fun x hx => absurd hx List.not_mem_nil
  | cons y l ih =>
    rw [List.filterMap_cons] at h
    cases hy : g y with
    | none =>
      rw [hy] at h
      have hwhole : l.filterMap g = y :: l := h
      have hle := List.length_filterMap_le g l
      rw [hwhole, List.length_cons] at hle
      omega
    | some z =>
      rw [hy] at h
      obtain ⟨rfl, hrest⟩ := List.cons.inj h
      exact List.forall_mem_cons.2 ⟨hy, ih hrest⟩

/-- Only what JSON has a form for comes back as it was. -/
theorem Distinct.settled_iff {v : JsVal} (h : v.Distinct) : v.settled = some v ↔ v.Storable := by
  refine ⟨fun hv => ?_, Storable.settled⟩
  induction h with
  | undefined => cases hv
  | null => exact .null
  | bool b => exact .bool b
  | num n =>
    cases n with
    | int n => exact .int n
    | nan => cases hv
    | posInf => cases hv
    | negInf => cases hv
  | str s => exact .str s
  | arr l _ ih =>
    rw [JsVal.settled, settledItems_eq] at hv
    refine .arr l fun w hw => ih w hw ?_
    have hself : l.map (fun w => w.settled.getD JsVal.null) = l.map id := by
      rw [List.map_id]
      exact JsVal.arr.inj (Option.some.inj hv)
    have hone := List.map_inj_left.1 hself w hw
    cases hsettled : w.settled with
    | none =>
      rw [hsettled] at hone
      rw [← show JsVal.null = w from hone] at hsettled
      cases hsettled
    | some w' =>
      rw [hsettled] at hone
      exact congrArg some hone
  | obj fs hkeys _ ih =>
    rw [JsVal.settled, settledFields_eq] at hv
    refine .obj fs hkeys fun f hf => ih f hf ?_
    have hone := filterMap_self (JsVal.obj.inj (Option.some.inj hv)) f hf
    obtain ⟨w, hw, he⟩ := Option.map_eq_some_iff.1 hone
    rw [hw, ← he]

end JsVal

/-- The properties of an object that has been read again. -/
def reread (o : Obj) : Obj where
  entries := JsVal.settledFields o.entries
  nodup := by
    rw [JsVal.settledFields_eq]
    refine o.nodup.sublist ?_
    induction o.entries with
    | nil => exact .refl _
    | cons e es ih =>
      rw [List.filterMap_cons, List.map_cons]
      cases e.2.settled with
      | none => exact ih.cons _
      | some w => exact ih.cons_cons _

section Settle
variable {o : Obj} {k : String} {v : JsVal}

theorem get?_reread (o : Obj) (k : String) : (reread o).get? k = (o.get? k).bind JsVal.settled := by
  ext w
  rw [Dict.get?_eq_some, Option.bind_eq_some_iff]
  change (k, w) ∈ JsVal.settledFields o.entries ↔ _
  rw [JsVal.settledFields_eq, List.mem_filterMap]
  constructor
  · rintro ⟨f, hf, hw⟩
    obtain ⟨w', hw', he⟩ := Option.map_eq_some_iff.1 hw
    cases he
    exact ⟨f.2, Dict.get?_eq_some.2 hf, hw'⟩
  · rintro ⟨v, hv, hw⟩
    exact ⟨(k, v), Dict.get?_eq_some.1 hv, by rw [hw]; rfl⟩

theorem settled_entries (o : Obj) : (JsVal.obj o.entries).settled = some (.obj (reread o).entries) := rfl

/-- The dictionaries of the store are read back item by item. -/
theorem reread_mapVals {α : Type} (d : Dict String α) {f g : String → α → JsVal}
    (h : ∀ k a, d.get? k = some a → (f k a).settled = some (g k a)) : reread (d.mapVals f) = d.mapVals g := by
  apply Dict.ext_entries
  change JsVal.settledFields (d.entries.map fun e => (e.1, f e.1 e.2)) = d.entries.map fun e => (e.1, g e.1 e.2)
  have hone : ∀ e ∈ d.entries, ((f e.1 e.2).settled.map fun w => (e.1, w)) = some (e.1, g e.1 e.2) := by
    intro e he
    rw [h e.1 e.2 (Dict.get?_eq_some.2 he)]
    rfl
  rw [JsVal.settledFields_eq, List.filterMap_map, ← List.filterMap_eq_map']
  exact List.filterMap_congr hone

/-- The properties of a record with fields of their own, and behind them all others. -/
theorem nodup_own {keys : List String} {own : List (String × JsVal)} {fields : Obj}
    (hown : ∀ k ∈ own.map Prod.fst, k ∈ keys) (hnodup : (own.map Prod.fst).Nodup) (hextra : ∀ k ∈ fields, k ∉ keys) :
    ((own ++ fields.entries).map Prod.fst).Nodup := by
  rw [List.map_append, List.nodup_append]
  refine ⟨hnodup, fields.nodup, ?_⟩
  rintro k hk _ hk' rfl
  exact hextra k hk' (hown k hk)

theorem settledFields_append (l r : List (String × JsVal)) :
    JsVal.settledFields (l ++ r) = JsVal.settledFields l ++ JsVal.settledFields r := by
  rw [JsVal.settledFields_eq, JsVal.settledFields_eq, JsVal.settledFields_eq, List.filterMap_append]

theorem mem_settledFields {fs : List (String × JsVal)} {e : String × JsVal} (h : e ∈ JsVal.settledFields fs) :
    e.1 ∈ fs.map Prod.fst := by
  rw [JsVal.settledFields_eq] at h
  obtain ⟨f, hf, he⟩ := List.mem_filterMap.1 h
  obtain ⟨w, -, rfl⟩ := Option.map_eq_some_iff.1 he
  exact List.mem_map.2 ⟨f, hf, rfl⟩

/-- The other properties are set one after the other. -/
theorem restored_fields {keys : List String} {own : List (String × JsVal)} {fields : Obj}
    (hown : ∀ k ∈ own.map Prod.fst, k ∈ keys) (hextra : ∀ k ∈ fields, k ∉ keys) :
    (JsVal.settledFields (own ++ fields.entries)).foldl (fun fs e => if e.1 ∈ keys then fs else fs.set e.1 e.2) .empty =
      reread fields := by
  have hskip : ∀ (l : List (String × JsVal)) (fs : Obj), (∀ e ∈ l, e.1 ∈ keys) →
      l.foldl (fun fs e => if e.1 ∈ keys then fs else fs.set e.1 e.2) fs = fs := by
    intro l fs hl
    induction l with
    | nil => rfl
    | cons e l ih =>
      obtain ⟨he, hrest⟩ := List.forall_mem_cons.1 hl
      rw [List.foldl_cons, if_pos he, ih hrest]
  have hset : ∀ (l : List (String × JsVal)) (fs : Obj), (∀ e ∈ l, e.1 ∉ keys) →
      l.foldl (fun fs e => if e.1 ∈ keys then fs else fs.set e.1 e.2) fs = l.foldl (fun fs e => fs.set e.1 e.2) fs := by
    intro l fs hl
    induction l generalizing fs with
    | nil => rfl
    | cons e l ih =>
      obtain ⟨he, hrest⟩ := List.forall_mem_cons.1 hl
      rw [List.foldl_cons, List.foldl_cons, if_neg he, ih _ hrest]
  rw [settledFields_append, List.foldl_append, hskip _ _ fun e he => hown e.1 (mem_settledFields he),
    hset _ _ fun e he => hextra e.1 (mem_settledFields he)]
  exact Dict.ofList_entries (reread fields)

theorem KeySet.toVal_entries (ks : KeySet) : ks.toVal = .obj (ks.mapVals fun _ _ => JsVal.ofNat 1).entries := by
  rw [KeySet.toVal, Dict.keys, List.map_map]
  rfl

theorem KeySet.settled_toVal (ks : KeySet) : ks.toVal.settled = some ks.toVal := by
  rw [KeySet.toVal_entries]
  have hsame : reread (ks.mapVals fun _ _ => JsVal.ofNat 1) = ks.mapVals fun _ _ => JsVal.ofNat 1 :=
    reread_mapVals ks fun k a _ => rfl
  exact congrArg (fun o : Obj => some (JsVal.obj o.entries)) hsame

theorem KeySet.toKeySet_toVal (ks : KeySet) : ks.toVal.toKeySet = ks := by
  rw [KeySet.toVal_entries, JsVal.toKeySet, JsVal.toObj, Dict.ofList_entries]
  apply Dict.ext_entries
  change (ks.entries.map _).map _ = _
  rw [List.map_map]
  exact List.map_id ks.entries

theorem overlay_reread {α : Type} (o : Obj) (k : String) (f : JsVal → α) (old : α) :
    overlay (reread o) k f old = (((o.get? k).bind JsVal.settled).map f).getD old := by
  rw [overlay, get?_reread]

/-- What an extension leaves in the other properties of a record. -/
theorem foldl_assign_fields {ρ : Type} {assign : ρ → String → JsVal → ρ} {fields : ρ → Obj} {keys : List String}
    (hstep : ∀ r k v, fields (assign r k v) = if k ∈ keys then fields r else (fields r).set k v)
    (es : List (String × JsVal)) (r : ρ) : fields (es.foldl (fun r e => assign r e.1 e.2) r) =
      es.foldl (fun fs e => if e.1 ∈ keys then fs else fs.set e.1 e.2) (fields r) := by
  induction es generalizing r with
  | nil => rfl
  | cons e es ih => rw [List.foldl_cons, List.foldl_cons, ih, hstep]

end Settle

/-! The records as objects, with their properties in the order of a new record. -/

namespace Plan

def own (p : Plan) : List (String × JsVal) :=
  [("name", .str p.name), ("owner", .str p.owner), ("maxDomainCount", p.maxDomainCount),
    ("maxUserCount", p.maxUserCount), ("canCreatePlan", p.canCreatePlan), ("canCreateUser", p.canCreateUser),
    ("planMaximums", .obj p.planMaximums.entries), ("users", p.users.toVal), ("suspended", p.suspended)]

theorem own_keys (p : Plan) : ∀ k ∈ p.own.map Prod.fst, k ∈ planKeys := by
  have hall : ∀ k ∈ ["name", "owner", "maxDomainCount", "maxUserCount", "canCreatePlan", "canCreateUser",
    "planMaximums", "users", "suspended"], k ∈ planKeys := by decide
  exact hall

def toObj (p : Plan) : Obj where
  entries := p.own ++ p.fields.entries
  nodup := by
    have hnodup : ["name", "owner", "maxDomainCount", "maxUserCount", "canCreatePlan", "canCreateUser",
      "planMaximums", "users", "suspended"].Nodup := by decide
    exact nodup_own p.own_keys hnodup p.extra

/-- `new Plan(name, null, opts, true)` of what was saved: what the options bring is taken over unchecked. -/
def restore (name : String) (opts : Obj) : Plan :=
  Plan.extend
    { name, owner := JsVal.undefined.toKey, users := .empty, suspended := .bool false
      maxDomainCount := .undefined, maxUserCount := .undefined, canCreatePlan := .undefined
      canCreateUser := .undefined, planMaximums := .empty, fields := .empty, extra := extra_empty } opts

/-- The plan when it has been read again. -/
def settle (p : Plan) : Plan where
  name := p.name
  owner := p.owner
  users := p.users
  suspended := p.suspended.settled.getD (.bool false)
  maxDomainCount := p.maxDomainCount.settled.getD .undefined
  maxUserCount := p.maxUserCount.settled.getD .undefined
  canCreatePlan := p.canCreatePlan.settled.getD .undefined
  canCreateUser := p.canCreateUser.settled.getD .undefined
  planMaximums := reread p.planMaximums
  fields := reread p.fields
  extra k hk := by
    obtain ⟨v, hv⟩ := Dict.mem_iff.1 hk
    rw [get?_reread, Option.bind_eq_some_iff] at hv
    obtain ⟨w, hw, -⟩ := hv
    exact p.extra k (Dict.mem_of_get? hw)

theorem extend_fields (p : Plan) (ext : Obj) :
    (p.extend ext).fields = ext.entries.foldl (fun fs e => if e.1 ∈ planKeys then fs else fs.set e.1 e.2) p.fields := by
  refine foldl_assign_fields (fun r k v => ?_) ext.entries p
  unfold assign
  split
  · exact (r.assignOwn_same k v).fields
  · rfl

theorem eq_of_fields {p q : Plan} (hname : p.name = q.name) (howner : p.owner = q.owner) (husers : p.users = q.users)
    (hsuspended : p.suspended = q.suspended) (hdomains : p.maxDomainCount = q.maxDomainCount)
    (hcount : p.maxUserCount = q.maxUserCount) (hplan : p.canCreatePlan = q.canCreatePlan)
    (huser : p.canCreateUser = q.canCreateUser) (hmaximums : p.planMaximums = q.planMaximums)
    (hfields : p.fields = q.fields) : p = q := by
  cases p
  cases q
  simp only [mk.injEq]
  exact ⟨hname, howner, husers, hsuspended, hdomains, hcount, hplan, huser, hmaximums, hfields⟩

/-- What is made of a saved plan. -/
theorem restore_settle (p : Plan) (name : String) : restore name (reread p.toObj) = p.settle := by
  apply eq_of_fields
  · rw [restore, extend_name, overlay_reread]
    rfl
  · rw [restore, extend_owner, overlay_reread]
    rfl
  · have husers : p.toObj.get? "users" = some p.users.toVal := rfl
    rw [restore, extend_users, overlay_reread, husers, Option.bind_some, KeySet.settled_toVal, Option.map_some,
      Option.getD_some, KeySet.toKeySet_toVal]
    rfl
  · have hsuspended : p.toObj.get? "suspended" = some p.suspended := rfl
    rw [restore, extend_suspended, overlay_reread, hsuspended, Option.bind_some, Option.map_id_fun]
    rfl
  · have hcount : p.toObj.get? "maxDomainCount" = some p.maxDomainCount := rfl
    rw [restore, extend_maxDomainCount, overlay_reread, hcount, Option.bind_some, Option.map_id_fun]
    rfl
  · have hcount : p.toObj.get? "maxUserCount" = some p.maxUserCount := rfl
    rw [restore, extend_maxUserCount, overlay_reread, hcount, Option.bind_some, Option.map_id_fun]
    rfl
  · have hcan : p.toObj.get? "canCreatePlan" = some p.canCreatePlan := rfl
    rw [restore, extend_canCreatePlan, overlay_reread, hcan, Option.bind_some, Option.map_id_fun]
    rfl
  · have hcan : p.toObj.get? "canCreateUser" = some p.canCreateUser := rfl
    rw [restore, extend_canCreateUser, overlay_reread, hcan, Option.bind_some, Option.map_id_fun]
    rfl
  · have hmaximums : p.toObj.get? "planMaximums" = some (.obj p.planMaximums.entries) := rfl
    rw [restore, extend_planMaximums, overlay_reread, hmaximums, Option.bind_some, JsVal.settled, Option.map_some,
      Option.getD_some]
    exact Dict.ofList_entries (reread p.planMaximums)
  · rw [restore, extend_fields]
    exact restored_fields p.own_keys p.extra

end Plan

namespace User

def own (u : User) : List (String × JsVal) :=
  [("name", .str u.name), ("domains", u.domains.toVal), ("plan", .str u.plan), ("subPlans", u.subPlans.toVal),
    ("suspended", u.suspended)]

theorem own_keys (u : User) : ∀ k ∈ u.own.map Prod.fst, k ∈ userKeys := by
  have hall : ∀ k ∈ ["name", "domains", "plan", "subPlans", "suspended"], k ∈ userKeys := by decide
  exact hall

def toObj (u : User) : Obj where
  entries := u.own ++ u.fields.entries
  nodup := by
    have hnodup : ["name", "domains", "plan", "subPlans", "suspended"].Nodup := by decide
    exact nodup_own u.own_keys hnodup u.extra

/-- `new User(name, plan, opts)` of what was saved, where the plan is a name and has none itself. -/
def restore (name : String) (opts : Obj) : User := User.new name JsVal.undefined.toKey opts

def settle (u : User) : User where
  name := u.name
  plan := u.plan
  domains := u.domains
  subPlans := u.subPlans
  suspended := u.suspended.settled.getD (.bool false)
  fields := reread u.fields
  extra k hk := by
    obtain ⟨v, hv⟩ := Dict.mem_iff.1 hk
    rw [get?_reread, Option.bind_eq_some_iff] at hv
    obtain ⟨w, hw, -⟩ := hv
    exact u.extra k (Dict.mem_of_get? hw)

theorem extend_suspended (u : User) (ext : Obj) : (u.extend ext).suspended = overlay ext "suspended" id u.suspended :=
  extend_field u ext suspended "suspended" _ (fun _ _ => rfl)
    (fun r k v hk => (r.assignOwn_same k v).suspended hk) fun _ _ _ => rfl

theorem extend_fields (u : User) (ext : Obj) :
    (u.extend ext).fields = ext.entries.foldl (fun fs e => if e.1 ∈ userKeys then fs else fs.set e.1 e.2) u.fields := by
  refine foldl_assign_fields (fun r k v => ?_) ext.entries u
  unfold assign
  split
  · exact (r.assignOwn_same k v).fields
  · rfl

theorem eq_of_fields {u v : User} (hname : u.name = v.name) (hplan : u.plan = v.plan) (hdomains : u.domains = v.domains)
    (hsubPlans : u.subPlans = v.subPlans) (hsuspended : u.suspended = v.suspended) (hfields : u.fields = v.fields) :
    u = v := by
  cases u
  cases v
  simp only [mk.injEq]
  exact ⟨hname, hplan, hdomains, hsubPlans, hsuspended, hfields⟩

/-- What is made of a saved user. -/
theorem restore_settle (u : User) (name : String) : restore name (reread u.toObj) = u.settle := by
  apply eq_of_fields
  · rw [restore, User.new, extend_name, overlay_reread]
    rfl
  · rw [restore, User.new, extend_plan, overlay_reread]
    rfl
  · have hdomains : u.toObj.get? "domains" = some u.domains.toVal := rfl
    rw [restore, User.new, extend_domains, overlay_reread, hdomains, Option.bind_some, KeySet.settled_toVal,
      Option.map_some, Option.getD_some, KeySet.toKeySet_toVal]
    rfl
  · have hsubPlans : u.toObj.get? "subPlans" = some u.subPlans.toVal := rfl
    rw [restore, User.new, extend_subPlans, overlay_reread, hsubPlans, Option.bind_some, KeySet.settled_toVal,
      Option.map_some, Option.getD_some, KeySet.toKeySet_toVal]
    rfl
  · have hsuspended : u.toObj.get? "suspended" = some u.suspended := rfl
    rw [restore, User.new, extend_suspended, overlay_reread, hsuspended, Option.bind_some, Option.map_id_fun]
    rfl
  · rw [restore, User.new, extend_fields]
    exact restored_fields u.own_keys u.extra

end User

namespace Domain

/-- A domain stays the object that was read. -/
def restore (opts : Obj) : Domain :=
  Domain.extend { name := JsVal.undefined.toKey, owner := JsVal.undefined.toKey, fields := .empty, extra := extra_empty }
    opts

def settle (d : Domain) : Domain where
  name := d.name
  owner := d.owner
  fields := reread d.fields
  extra k hk := by
    obtain ⟨v, hv⟩ := Dict.mem_iff.1 hk
    rw [get?_reread, Option.bind_eq_some_iff] at hv
    obtain ⟨w, hw, -⟩ := hv
    exact d.extra k (Dict.mem_of_get? hw)

theorem extend_fields (d : Domain) (ext : Obj) :
    (d.extend ext).fields = ext.entries.foldl (fun fs e => if e.1 ∈ domainKeys then fs else fs.set e.1 e.2) d.fields := by
  refine foldl_assign_fields (fun r k v => ?_) ext.entries d
  unfold assign
  split
  · exact (r.assignOwn_same k v).fields
  · rfl

def own (d : Domain) : List (String × JsVal) := [("name", .str d.name), ("owner", .str d.owner)]

theorem own_keys (d : Domain) : ∀ k ∈ d.own.map Prod.fst, k ∈ domainKeys := by
  have hall : ∀ k ∈ ["name", "owner"], k ∈ domainKeys := by decide
  exact hall

theorem restore_settle (d : Domain) : restore (reread d.toObj) = d.settle := by
  have hentries : d.toObj.entries = d.own ++ d.fields.entries := d.toObj_entries
  have hget : ∀ k, d.toObj.get? k = Dict.lookup (d.own ++ d.fields.entries) k := by
    intro k
    rw [← hentries]
    rfl
  apply eq_of_fields
  · rw [restore, extend_name, overlay_reread, hget]
    rfl
  · rw [restore, extend_owner, overlay_reread, hget]
    rfl
  · rw [restore, extend_fields]
    change (JsVal.settledFields d.toObj.entries).foldl _ _ = _
    rw [hentries]
    exact restored_fields d.own_keys d.extra

end Domain

/-- The permissions that the plan without limits is given back with. -/
def Plan.permitted (p : Plan) : Plan :=
  (((p.assign "plan_custom_socket" (.bool true)).assign "plan_sys_exec" (.bool true)).assign
    "plan_local_native_modules" (.bool true)).assign "plan_ssh" (.bool true)

namespace Store

/-- The database object. -/
def toVal (s : Store) : JsVal :=
  .obj [("Plans", .obj (s.plans.mapVals fun _ p => JsVal.obj p.toObj.entries).entries),
    ("Users", .obj (s.users.mapVals fun _ u => JsVal.obj u.toObj.entries).entries),
    ("Domains", .obj (s.domains.mapVals fun _ d => (d.map fun d => JsVal.obj d.toObj.entries).getD .null).entries),
    ("Config", .obj s.config.entries)]

/-- `UpdateDB(JSON.stringify(DB))`: the text that is stored. -/
def saved (s : Store) : List Char :=
  Base64.encode (Base64.utf8 ((s.toVal.toJson.map (Json.write Json.integers)).getD []))

/-- One of the dictionaries, an empty one if there is none. -/
def part (db : Obj) (k : String) : Obj := (prop db k).toObj

/-- The store that is made of the object that was read. -/
def ofVal (v : JsVal) : Store where
  plans := ((part v.toObj "Plans").mapVals fun o opts => Plan.restore o opts.toObj).modify unlimitedPlanName
    Plan.permitted
  users := (part v.toObj "Users").mapVals fun o opts => User.restore o opts.toObj
  domains := (part v.toObj "Domains").mapVals fun _ d => if d.truthy then some (Domain.restore d.toObj) else none
  config := part v.toObj "Config"

/-- `ReadDB`. A text of spaces alone stands for an empty object. -/
def readDB (value : List Char) : Js Store :=
  match Base64.fromUtf8 (Base64.decode value) with
  | none => .error (.thrown "SyntaxError")
  | some text =>
    match Json.read Json.integers (if text.all jsSpace then ['{', '}'] else text) with
    | none => .error (.thrown "SyntaxError")
    | some j => .ok (ofVal (JsVal.ofJson j))

/-- The store when it has been read again. -/
def settle (s : Store) : Store where
  plans := (s.plans.mapVals fun _ p => p.settle).modify unlimitedPlanName Plan.permitted
  users := s.users.mapVals fun _ u => u.settle
  domains := s.domains.mapVals fun _ d => d.map Domain.settle
  config := reread s.config

/-- No object in the store has two properties of one name. -/
structure Distinct (s : Store) : Prop where
  plans : ∀ n P, s.plans.get? n = some P → (JsVal.obj P.toObj.entries).Distinct
  users : ∀ n U, s.users.get? n = some U → (JsVal.obj U.toObj.entries).Distinct
  domains : ∀ n D, s.domains.get? n = some (some D) → (JsVal.obj D.toObj.entries).Distinct
  config : (JsVal.obj s.config.entries).Distinct

variable {s : Store}

theorem distinct_mapVals {α : Type} {d : Dict String α} {f : String → α → JsVal}
    (h : ∀ k a, d.get? k = some a → (f k a).Distinct) : (JsVal.obj (d.mapVals f).entries).Distinct := by
  refine .obj _ (d.mapVals f).nodup fun e he => ?_
  obtain ⟨e', he', rfl⟩ := List.mem_map.1 he
  exact h e'.1 e'.2 (Dict.get?_eq_some.2 he')

theorem Distinct.toVal (h : s.Distinct) : s.toVal.Distinct := by
  have hkeys : ["Plans", "Users", "Domains", "Config"].Nodup := by decide
  refine .obj _ hkeys ?_
  simp only [List.forall_mem_cons]
  refine ⟨distinct_mapVals h.plans, distinct_mapVals h.users, distinct_mapVals fun k d hd => ?_, h.config,
    fun e he => absurd he List.not_mem_nil⟩
  cases d with
  | none => exact .null
  | some D => exact h.domains k D hd

/-- What is read of the dictionaries. -/
theorem settled_toVal (s : Store) : s.toVal.settled = some (.obj
    [("Plans", .obj (s.plans.mapVals fun _ p => JsVal.obj (reread p.toObj).entries).entries),
      ("Users", .obj (s.users.mapVals fun _ u => JsVal.obj (reread u.toObj).entries).entries),
      ("Domains", .obj (s.domains.mapVals fun _ d =>
        (d.map fun d => JsVal.obj (reread d.toObj).entries).getD .null).entries),
      ("Config", .obj (reread s.config).entries)]) := by
  have hplans := reread_mapVals s.plans fun _ p _ => settled_entries p.toObj
  have husers := reread_mapVals s.users fun _ u _ => settled_entries u.toObj
  have hdomains : reread (s.domains.mapVals fun _ d => (d.map fun d => JsVal.obj d.toObj.entries).getD .null) =
      s.domains.mapVals fun _ d => (d.map fun d => JsVal.obj (reread d.toObj).entries).getD .null := by
    apply reread_mapVals
    intro k d _
    cases d with
    | none => rfl
    | some D => exact settled_entries D.toObj
  rw [← hplans, ← husers, ← hdomains]
  rfl

theorem parts (plans users domains config : Obj) :
    let db := (JsVal.obj [("Plans", .obj plans.entries), ("Users", .obj users.entries), ("Domains", .obj domains.entries),
      ("Config", .obj config.entries)]).toObj
    part db "Plans" = plans ∧ part db "Users" = users ∧ part db "Domains" = domains ∧ part db "Config" = config :=
  ⟨Dict.ofList_entries plans, Dict.ofList_entries users, Dict.ofList_entries domains, Dict.ofList_entries config⟩

theorem mapVals_mapVals {α β γ : Type} (d : Dict String α) (f : String → α → β) (g : String → β → γ) :
    (d.mapVals f).mapVals g = d.mapVals fun k a => g k (f k a) := by
  apply Dict.ext_entries
  exact List.map_map

theorem ofVal_settled {v : JsVal} (h : s.toVal.settled = some v) : ofVal v = s.settle := by
  rw [settled_toVal] at h
  cases h
  obtain ⟨hplans, husers, hdomains, hconfig⟩ := parts (s.plans.mapVals fun _ p => JsVal.obj (reread p.toObj).entries)
    (s.users.mapVals fun _ u => JsVal.obj (reread u.toObj).entries)
    (s.domains.mapVals fun _ d => (d.map fun d => JsVal.obj (reread d.toObj).entries).getD .null)
    (reread s.config)
  unfold ofVal
  rw [hplans, husers, hdomains, hconfig, mapVals_mapVals, mapVals_mapVals, mapVals_mapVals]
  have hplan : ∀ k (p : Plan), Plan.restore k (JsVal.obj (reread p.toObj).entries).toObj = p.settle := by
    intro k p
    rw [JsVal.toObj, Dict.ofList_entries, Plan.restore_settle]
  have huser : ∀ k (u : User), User.restore k (JsVal.obj (reread u.toObj).entries).toObj = u.settle := by
    intro k u
    rw [JsVal.toObj, Dict.ofList_entries, User.restore_settle]
  simp only [hplan, huser]
  unfold settle
  congr 2
  funext k d
  cases d with
  | none => rfl
  | some D => exact congrArg some (by rw [Option.map_some, Option.getD_some, JsVal.toObj, Dict.ofList_entries, D.restore_settle])

/-- A store that was saved is read back as it is, but for the values that JSON has no form for and the
permissions of the plan without limits. -/
theorem read_saved (h : s.Distinct) : readDB s.saved = .ok s.settle := by
  obtain ⟨j, hj⟩ : ∃ j, s.toVal.toJson = some j := ⟨_, rfl⟩
  have hread : Json.read Json.integers (Json.write Json.integers j) = some j := Json.read_write _ (h.toVal.proper hj)
  have htext : ((Json.write Json.integers j).all jsSpace) = false := by
    cases hj
    rfl
  have hval : some (JsVal.ofJson j) = s.toVal.settled := by
    rw [← JsVal.ofJson_toJson, hj]
    rfl
  unfold readDB saved
  rw [Base64.decode_encode, Base64.fromUtf8_utf8, hj]
  dsimp only [Option.map_some, Option.getD_some]
  rw [htext, if_neg Bool.false_ne_true, hread]
  exact congrArg Except.ok (ofVal_settled hval.symm)

end Store
end JXPanel

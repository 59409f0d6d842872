import Mathlib

set_option autoImplicit true

/-- What every object of the source answers to without having been given it. -/
def inheritedNames : List String :=
  ["constructor", "toString", "toLocaleString", "valueOf", "hasOwnProperty", "isPrototypeOf", "propertyIsEnumerable",
    "__defineGetter__", "__lookupGetter__", "__defineSetter__", "__lookupSetter__", "__proto__"]

/-- A dictionary keeps its entries in the order of insertion, one for each key. Its keys are meant to
be none of `inheritedNames`, where nothing is said of these, and not the text of a number, which an
object of the source lists before all others. -/
structure Dict (κ α : Type) where
  entries : List (κ × α)
  nodup : (entries.map Prod.fst).Nodup
deriving DecidableEq

namespace Dict
variable {κ α β : Type}

def empty : Dict κ α := ⟨[], List.nodup_nil⟩

def keys (d : Dict κ α) : List κ := d.entries.map Prod.fst

def size (d : Dict κ α) : Nat := d.entries.length

instance : Membership κ (Dict κ α) := ⟨fun d k => k ∈ d.keys⟩

/-- Change every value, knowing its key. -/
def mapVals (f : κ → α → β) (d : Dict κ α) : Dict κ β :=
  ⟨d.entries.map (fun e => (e.1, f e.1 e.2)), by
    rw [List.map_map]
    exact d.nodup⟩

def foldl (f : β → κ → α → β) (b : β) (d : Dict κ α) : β :=
  d.entries.foldl (fun b e => f b e.1 e.2) b

theorem mem_keys {d : Dict κ α} {k : κ} : k ∈ d.keys ↔ k ∈ d := Iff.rfl

theorem keys_nodup (d : Dict κ α) : d.keys.Nodup := d.nodup

theorem length_keys (d : Dict κ α) : d.keys.length = d.size := List.length_map _

@[simp] theorem keys_empty : (empty : Dict κ α).keys = [] := rfl

@[simp] theorem not_mem_empty (k : κ) : k ∉ (empty : Dict κ α) := List.not_mem_nil

@[simp] theorem keys_mapVals (f : κ → α → β) (d : Dict κ α) : (d.mapVals f).keys = d.keys := by
  simp [keys, mapVals]

@[simp] theorem mem_mapVals {f : κ → α → β} {d : Dict κ α} {k : κ} :
    k ∈ d.mapVals f ↔ k ∈ d := by
  rw [← mem_keys, keys_mapVals, mem_keys]

@[simp] theorem size_mapVals (f : κ → α → β) (d : Dict κ α) : (d.mapVals f).size = d.size :=
  List.length_map _

variable [DecidableEq κ]

def lookup : List (κ × α) → κ → Option α
  | [], _ => none
  | e :: es, k => if e.1 = k then some e.2 else lookup es k

def get? (d : Dict κ α) (k : κ) : Option α := lookup d.entries k

instance (k : κ) (d : Dict κ α) : Decidable (k ∈ d) := inferInstanceAs (Decidable (k ∈ d.keys))

/-- Assignment replaces the value of a present key in place and appends a new key. -/
def put : List (κ × α) → κ → α → List (κ × α)
  | [], k, v => [(k, v)]
  | e :: es, k, v => if e.1 = k then (k, v) :: es else e :: put es k v

theorem mem_put_keys (es : List (κ × α)) (k k' : κ) (v : α) :
    k' ∈ (put es k v).map Prod.fst ↔ k' = k ∨ k' ∈ es.map Prod.fst := by
  induction es with
  | nil => simp [put]
  | cons e es ih =>
    by_cases he : e.1 = k
    · simp [put, he]
    · simp only [put, if_neg he, List.map_cons, List.mem_cons, ih]
      tauto

theorem put_nodup (es : List (κ × α)) (k : κ) (v : α) (h : (es.map Prod.fst).Nodup) :
    ((put es k v).map Prod.fst).Nodup := by
  induction es with
  | nil => simp [put]
  | cons e es ih =>
    rw [List.map_cons, List.nodup_cons] at h
    by_cases he : e.1 = k
    · simp only [put, if_pos he, List.map_cons, List.nodup_cons]
      exact ⟨he ▸ h.1, h.2⟩
    · simp only [put, if_neg he, List.map_cons, List.nodup_cons, mem_put_keys]
      exact ⟨not_or.2 ⟨he, h.1⟩, ih h.2⟩

def set (d : Dict κ α) (k : κ) (v : α) : Dict κ α :=
  ⟨put d.entries k v, put_nodup _ _ _ d.nodup⟩

def erase (d : Dict κ α) (k : κ) : Dict κ α :=
  ⟨d.entries.filter (fun e => e.1 ≠ k), d.nodup.sublist (List.filter_sublist.map _)⟩

def eraseAll (d : Dict κ α) (ks : List κ) : Dict κ α := ks.foldl erase d

/-- Change the value of one key; an absent key stays absent. -/
def modify (d : Dict κ α) (k : κ) (f : α → α) : Dict κ α :=
  d.mapVals (fun k' v => if k' = k then f v else v)

def ofList (es : List (κ × α)) : Dict κ α := es.foldl (fun d e => d.set e.1 e.2) empty

@[simp] theorem get?_empty (k : κ) : (empty : Dict κ α).get? k = none := rfl

theorem lookup_eq_none {es : List (κ × α)} {k : κ} :
    lookup es k = none ↔ k ∉ es.map Prod.fst := by
  induction es with
  | nil => simp [lookup]
  | cons e es ih =>
    by_cases he : e.1 = k
    · simp [lookup, he]
    · simp [lookup, if_neg he, ih, Ne.symm he]

theorem get?_eq_none {d : Dict κ α} {k : κ} : d.get? k = none ↔ k ∉ d := lookup_eq_none

theorem mem_iff {d : Dict κ α} {k : κ} : k ∈ d ↔ ∃ v, d.get? k = some v := by
  rw [← Option.ne_none_iff_exists', ne_eq, get?_eq_none, not_not]

theorem mem_of_get? {d : Dict κ α} {k : κ} {v : α} (h : d.get? k = some v) : k ∈ d :=
  mem_iff.2 ⟨v, h⟩

theorem lookup_eq_some {es : List (κ × α)} {k : κ} {v : α} (h : (es.map Prod.fst).Nodup) :
    lookup es k = some v ↔ (k, v) ∈ es := by
  induction es with
  | nil => simp [lookup]
  | cons e es ih =>
    rw [List.map_cons, List.nodup_cons] at h
    by_cases he : e.1 = k
    · subst k
      have hn : (e.1, v) ∉ es := fun hm => h.1 (List.mem_map.2 ⟨_, hm, rfl⟩)
      simp only [lookup, if_pos, Option.some.injEq, List.mem_cons, hn, or_false]
      exact ⟨fun hv => Prod.ext rfl hv.symm, fun hv => (congrArg Prod.snd hv).symm⟩
    · have hn : (k, v) ≠ e := fun hv => he (congrArg Prod.fst hv).symm
      simp only [lookup, if_neg he, ih h.2, List.mem_cons, hn, false_or]

theorem get?_eq_some {d : Dict κ α} {k : κ} {v : α} :
    d.get? k = some v ↔ (k, v) ∈ d.entries := lookup_eq_some d.nodup

theorem lookup_put (es : List (κ × α)) (k k' : κ) (v : α) :
    lookup (put es k v) k' = if k' = k then some v else lookup es k' := by
  induction es with
  | nil => simp [put, lookup, eq_comm]
  | cons e es ih =>
    by_cases he : e.1 = k
    · by_cases hk : k = k'
      · simp [put, lookup, he, hk]
      · simp [put, lookup, he, hk, Ne.symm hk]
    · by_cases hk : k' = k
      · subst k'
        simp [put, lookup, he, ih]
      · simp only [put, if_neg he, lookup, ih, if_neg hk]

theorem get?_set (d : Dict κ α) (k k' : κ) (v : α) :
    (d.set k v).get? k' = if k' = k then some v else d.get? k' := lookup_put _ _ _ _

@[simp] theorem get?_set_self (d : Dict κ α) (k : κ) (v : α) : (d.set k v).get? k = some v := by
  rw [get?_set, if_pos rfl]

theorem get?_set_ne (d : Dict κ α) {k k' : κ} (v : α) (h : k' ≠ k) :
    (d.set k v).get? k' = d.get? k' := by
  rw [get?_set, if_neg h]

@[simp] theorem mem_set {d : Dict κ α} {k k' : κ} {v : α} : k' ∈ d.set k v ↔ k' = k ∨ k' ∈ d :=
  mem_put_keys _ _ _ _

theorem size_set_le (d : Dict κ α) (k : κ) (v : α) : d.size ≤ (d.set k v).size := by
  rw [← length_keys, ← length_keys]
  refine (List.subperm_of_subset d.keys_nodup fun x hx => ?_).length_le
  exact mem_set.2 (.inr hx)

theorem lookup_filter (es : List (κ × α)) (p : κ → Bool) (k : κ) :
    lookup (es.filter (fun e => p e.1)) k = if p k then lookup es k else none := by
  induction es with
  | nil => simp [lookup]
  | cons e es ih =>
    by_cases he : e.1 = k
    · subst k
      cases hp : p e.1 <;> simp [hp, lookup, ih]
    · cases hp : p e.1 <;> simp [hp, lookup, he, ih]

theorem get?_erase (d : Dict κ α) (k k' : κ) :
    (d.erase k).get? k' = if k' = k then none else d.get? k' := by
  refine (lookup_filter d.entries (fun x => decide (x ≠ k)) k').trans ?_
  by_cases hk : k' = k <;> simp [hk, get?]

@[simp] theorem get?_erase_self (d : Dict κ α) (k : κ) : (d.erase k).get? k = none := by
  rw [get?_erase, if_pos rfl]

theorem get?_erase_ne (d : Dict κ α) {k k' : κ} (h : k' ≠ k) :
    (d.erase k).get? k' = d.get? k' := by
  rw [get?_erase, if_neg h]

@[simp] theorem mem_erase {d : Dict κ α} {k k' : κ} : k' ∈ d.erase k ↔ k' ≠ k ∧ k' ∈ d := by
  rw [mem_iff, get?_erase, mem_iff]
  by_cases hk : k' = k <;> simp [hk]

theorem keys_erase_sublist (d : Dict κ α) (k : κ) : (d.erase k).keys.Sublist d.keys :=
  List.filter_sublist.map _

theorem get?_eraseAll (d : Dict κ α) (ks : List κ) (k : κ) :
    (d.eraseAll ks).get? k = if k ∈ ks then none else d.get? k := by
  induction ks generalizing d with
  | nil => simp [eraseAll]
  | cons x ks ih =>
    have h := ih (d.erase x)
    rw [get?_erase] at h
    change ((d.erase x).eraseAll ks).get? k = _
    rw [h]
    by_cases hk : k = x <;> simp [hk]

theorem erase_of_not_mem {d : Dict κ α} {k : κ} (h : k ∉ d) : d.erase k = d := by
  have hs : d.entries.filter (fun e => e.1 ≠ k) = d.entries :=
    List.filter_eq_self.2 fun e he => decide_eq_true fun hk =>
      h (hk ▸ mem_keys.1 (List.mem_map.2 ⟨e, he, rfl⟩))
  obtain ⟨es, hn⟩ := d
  simpa [erase] using hs

theorem mem_eraseAll {d : Dict κ α} {ks : List κ} {k : κ} :
    k ∈ d.eraseAll ks ↔ k ∉ ks ∧ k ∈ d := by
  rw [mem_iff, get?_eraseAll, mem_iff]
  by_cases hk : k ∈ ks <;> simp [hk]

theorem keys_eraseAll_sublist (d : Dict κ α) (ks : List κ) :
    (d.eraseAll ks).keys.Sublist d.keys := by
  induction ks generalizing d with
  | nil => exact .refl _
  | cons x ks ih => exact (ih (d.erase x)).trans (keys_erase_sublist d x)

theorem put_of_absent (es : List (κ × α)) (k : κ) (v : α) (h : k ∉ es.map Prod.fst) :
    put es k v = es ++ [(k, v)] := by
  induction es with
  | nil => rfl
  | cons e es ih =>
    rw [List.map_cons, List.mem_cons, not_or] at h
    rw [put, if_neg (Ne.symm h.1), ih h.2]
    rfl

theorem keys_set_of_absent {d : Dict κ α} {k : κ} (h : k ∉ d) (v : α) :
    (d.set k v).keys = d.keys ++ [k] :=
  (congrArg (List.map Prod.fst) (put_of_absent _ _ _ h)).trans List.map_append

theorem put_of_mem (es : List (κ × α)) (k : κ) (v : α) (h : k ∈ es.map Prod.fst) :
    (put es k v).map Prod.fst = es.map Prod.fst := by
  induction es with
  | nil => exact absurd h List.not_mem_nil
  | cons e es ih =>
    by_cases he : e.1 = k
    · rw [put, if_pos he, List.map_cons, List.map_cons, he]
    · rw [List.map_cons, List.mem_cons] at h
      rw [put, if_neg he, List.map_cons, List.map_cons, ih (h.resolve_left (Ne.symm he))]

theorem keys_set_of_mem {d : Dict κ α} {k : κ} (h : k ∈ d) (v : α) :
    (d.set k v).keys = d.keys := put_of_mem _ _ _ h

theorem put_put (es : List (κ × α)) (k : κ) (v w : α) : put (put es k v) k w = put es k w := by
  induction es with
  | nil => simp [put]
  | cons e es ih =>
    by_cases he : e.1 = k
    · simp [put, he]
    · simp only [put, if_neg he, ih]

omit [DecidableEq κ] in
theorem ext_entries {d d' : Dict κ α} (h : d.entries = d'.entries) : d = d' := by
  cases d
  cases d'
  cases h
  rfl

theorem set_set (d : Dict κ α) (k : κ) (v w : α) : (d.set k v).set k w = d.set k w :=
  ext_entries (put_put _ _ _ _)

theorem put_lookup {es : List (κ × α)} {k : κ} {v : α} (h : lookup es k = some v) :
    put es k v = es := by
  induction es with
  | nil => cases h
  | cons e es ih =>
    rw [lookup] at h
    split at h
    · rename_i he
      cases h
      rw [put, if_pos he, ← he]
    · rename_i he
      rw [put, if_neg he, ih h]

theorem set_get? {d : Dict κ α} {k : κ} {v : α} (h : d.get? k = some v) : d.set k v = d :=
  ext_entries (put_lookup h)

theorem size_set_le_succ (d : Dict κ α) (k : κ) (v : α) : (d.set k v).size ≤ d.size + 1 := by
  rw [← length_keys, ← length_keys]
  by_cases hk : k ∈ d
  · rw [keys_set_of_mem hk]
    exact Nat.le_succ _
  · rw [keys_set_of_absent hk, List.length_append]
    exact Nat.le_refl _

theorem size_erase_le (d : Dict κ α) (k : κ) : (d.erase k).size ≤ d.size :=
  List.length_filter_le _ _

theorem size_eraseAll_le (d : Dict κ α) (ks : List κ) : (d.eraseAll ks).size ≤ d.size := by
  rw [← length_keys, ← length_keys]
  exact (keys_eraseAll_sublist d ks).length_le

theorem lookup_map (f : κ → α → β) (es : List (κ × α)) (k : κ) :
    lookup (es.map (fun e => (e.1, f e.1 e.2))) k = (lookup es k).map (f k) := by
  induction es with
  | nil => rfl
  | cons e es ih =>
    by_cases he : e.1 = k
    · simp [lookup, he]
    · simpa [lookup, he] using ih

theorem get?_mapVals (f : κ → α → β) (d : Dict κ α) (k : κ) :
    (d.mapVals f).get? k = (d.get? k).map (f k) := lookup_map _ _ _

theorem map_put {es : List (κ × α)} {k : κ} {v v₀ : α} (f : κ → α → β)
    (h : lookup es k = some v₀) (hf : f k v = f k v₀) :
    (put es k v).map (fun e => (e.1, f e.1 e.2)) = es.map (fun e => (e.1, f e.1 e.2)) := by
  induction es with
  | nil => cases h
  | cons e es ih =>
    by_cases he : e.1 = k
    · rw [lookup, if_pos he] at h
      obtain ⟨k', v'⟩ := e
      cases he
      cases h
      simp [put, hf]
    · rw [lookup, if_neg he] at h
      simp [put, he, ih h]

/-- A new value that looks the same under a map of the values leaves the map as it was. -/
theorem mapVals_set {d : Dict κ α} {k : κ} {v v₀ : α} (f : κ → α → β)
    (h : d.get? k = some v₀) (hf : f k v = f k v₀) : (d.set k v).mapVals f = d.mapVals f := by
  have he := map_put f h hf
  simp only [mapVals, set, he]

theorem get?_modify (d : Dict κ α) (k k' : κ) (f : α → α) :
    (d.modify k f).get? k' = if k' = k then (d.get? k').map f else d.get? k' := by
  rw [modify, get?_mapVals]
  by_cases hk : k' = k
  · simp [hk]
  · simp [hk]

theorem get?_modify_self (d : Dict κ α) (k : κ) (f : α → α) :
    (d.modify k f).get? k = (d.get? k).map f := by
  rw [get?_modify, if_pos rfl]

theorem get?_modify_ne (d : Dict κ α) {k k' : κ} (f : α → α) (h : k' ≠ k) :
    (d.modify k f).get? k' = d.get? k' := by
  rw [get?_modify, if_neg h]

theorem modify_eq_self {d : Dict κ α} {k : κ} {f : α → α} (h : ∀ v, d.get? k = some v → f v = v) :
    d.modify k f = d := by
  apply ext_entries
  have hsame : ∀ e ∈ d.entries, (e.1, if e.1 = k then f e.2 else e.2) = e := by
    intro e he
    split
    · rename_i hk
      rw [h e.2 (get?_eq_some.2 (hk ▸ he))]
    · rfl
  exact (List.map_congr_left hsame).trans (List.map_id _)

def dropKeys (d : Dict κ α) (b : κ → Bool) : Dict κ α := d.eraseAll (d.keys.filter b)

theorem get?_dropKeys (d : Dict κ α) (b : κ → Bool) (k : κ) :
    (d.dropKeys b).get? k = if b k = true then none else d.get? k := by
  rw [dropKeys, get?_eraseAll]
  by_cases hb : b k = true
  · rw [if_pos hb]
    by_cases hk : k ∈ d
    · exact if_pos (List.mem_filter.2 ⟨mem_keys.2 hk, hb⟩)
    · rw [get?_eq_none.2 hk, ite_self]
  · rw [if_neg hb]
    exact if_neg fun hm => hb (List.mem_filter.1 hm).2

theorem mem_dropKeys {d : Dict κ α} {b : κ → Bool} {k : κ} :
    k ∈ d.dropKeys b ↔ b k = false ∧ k ∈ d := by
  rw [mem_iff, get?_dropKeys, mem_iff]
  cases b k with
  | true => simp
  | false => simp

theorem dropKeys_eq_self {d : Dict κ α} {b : κ → Bool} (h : ∀ k ∈ d, b k = false) : d.dropKeys b = d := by
  have hnone : d.keys.filter b = [] := by
    apply List.filter_eq_nil_iff.2
    intro k hk hb
    rw [h k (mem_keys.1 hk)] at hb
    cases hb
  rw [dropKeys, hnone]
  rfl

theorem dropKeys_dropKeys (d : Dict κ α) (b : κ → Bool) : (d.dropKeys b).dropKeys b = d.dropKeys b :=
  dropKeys_eq_self fun _ hk => (mem_dropKeys.1 hk).1

/-- Two changes of one value are one change. -/
theorem modify_modify (d : Dict κ α) (k : κ) (f g : α → α) :
    (d.modify k f).modify k g = d.modify k fun v => g (f v) := by
  apply ext_entries
  change List.map _ (List.map _ d.entries) = List.map _ d.entries
  rw [List.map_map]
  apply List.map_congr_left
  intro e _
  by_cases hk : e.1 = k
  · simp only [Function.comp_apply, if_pos hk]
  · simp only [Function.comp_apply, if_neg hk]

@[simp] theorem keys_modify (d : Dict κ α) (k : κ) (f : α → α) : (d.modify k f).keys = d.keys :=
  keys_mapVals _ _

@[simp] theorem mem_modify {d : Dict κ α} {k k' : κ} {f : α → α} : k' ∈ d.modify k f ↔ k' ∈ d :=
  mem_mapVals

@[simp] theorem size_modify (d : Dict κ α) (k : κ) (f : α → α) : (d.modify k f).size = d.size :=
  size_mapVals _ _

/-- What is set under a new key is gone again when the key is erased. -/
theorem erase_set_of_absent {d : Dict κ α} {k : κ} (h : k ∉ d) (v : α) : (d.set k v).erase k = d := by
  apply ext_entries
  have hkept : d.entries.filter (fun e => e.1 ≠ k) = d.entries := congrArg entries (erase_of_not_mem h)
  change (put d.entries k v).filter (fun e => e.1 ≠ k) = d.entries
  rw [put_of_absent _ _ _ h, List.filter_append, hkept, List.filter_singleton, decide_eq_false (not_not.2 rfl)]
  exact List.append_nil _

theorem mapVals_modify_eq_self {d : Dict κ α} {k : κ} {f : α → α} {g : κ → α → α}
    (h : ∀ x v, d.get? x = some v → g x (if x = k then f v else v) = v) : (d.modify k f).mapVals g = d := by
  apply ext_entries
  change (d.entries.map _).map _ = d.entries
  rw [List.map_map]
  refine (List.map_congr_left fun e he => ?_).trans (List.map_id _)
  exact Prod.ext rfl (h e.1 e.2 (get?_eq_some.2 he))

/-- Dictionaries that look the same under a map of the values differ in a value of some key only. -/
theorem eq_of_mapVals {d d' : Dict κ α} {f : κ → α → β} (h : d.mapVals f = d'.mapVals f)
    (hv : ∀ k v v', d.get? k = some v → d'.get? k = some v' → f k v = f k v' → v = v') : d = d' := by
  apply ext_entries
  have hmap : d.entries.map (fun e => (e.1, f e.1 e.2)) = d'.entries.map (fun e => (e.1, f e.1 e.2)) :=
    congrArg entries h
  apply List.ext_getElem
  · have hlen := congrArg List.length hmap
    rwa [List.length_map, List.length_map] at hlen
  · intro i hi hi'
    have hat : (d.entries[i].1, f d.entries[i].1 d.entries[i].2) =
        (d'.entries[i].1, f d'.entries[i].1 d'.entries[i].2) := by
      have heq := congrArg (fun l => l[i]?) hmap
      simpa [hi, hi'] using heq
    obtain ⟨hk, hf⟩ := Prod.mk.inj hat
    have hget : d.get? d.entries[i].1 = some d.entries[i].2 := get?_eq_some.2 (List.getElem_mem hi)
    have hget' : d'.get? d.entries[i].1 = some d'.entries[i].2 := by
      rw [hk]
      exact get?_eq_some.2 (List.getElem_mem hi')
    rw [← hk] at hf
    exact Prod.ext hk (hv _ _ _ hget hget' hf)

theorem entries_foldl_set {d : Dict κ α} {es : List (κ × α)} (h : ((d.entries ++ es).map Prod.fst).Nodup) :
    (es.foldl (fun d e => d.set e.1 e.2) d).entries = d.entries ++ es := by
  induction es generalizing d with
  | nil => exact (List.append_nil _).symm
  | cons e es ih =>
    have hnew : e.1 ∉ d.entries.map Prod.fst := by
      rw [List.map_append, List.nodup_append] at h
      exact fun hmem => h.2.2 _ hmem _ List.mem_cons_self rfl
    have hset : (d.set e.1 e.2).entries = d.entries ++ [e] := put_of_absent _ _ _ hnew
    have happend : (d.set e.1 e.2).entries ++ es = d.entries ++ e :: es := by
      rw [hset, List.append_assoc, List.singleton_append]
    rw [List.foldl_cons, ih (by rw [happend]; exact h), happend]

theorem ofList_entries (d : Dict κ α) : ofList d.entries = d :=
  ext_entries (entries_foldl_set d.nodup)

/-- A part of an accumulated record that only one key writes depends on that key alone. -/
theorem foldl_project {ρ : Type} {γ : Type} (step : ρ → κ → α → ρ) (π : ρ → γ) (k₀ : κ)
    (g : α → γ) (hself : ∀ r v, π (step r k₀ v) = g v)
    (hne : ∀ r k v, k ≠ k₀ → π (step r k v) = π r) (d : Dict κ α) (r : ρ) :
    π (d.foldl step r) = ((d.get? k₀).map g).getD (π r) := by
  obtain ⟨es, hn⟩ := d
  change π (es.foldl (fun b e => step b e.1 e.2) r) = ((lookup es k₀).map g).getD (π r)
  induction es generalizing r with
  | nil => rfl
  | cons e es ih =>
    rw [List.map_cons, List.nodup_cons] at hn
    rw [List.foldl_cons, ih _ hn.2]
    by_cases he : e.1 = k₀
    · have hnone : lookup es k₀ = none := lookup_eq_none.2 (he ▸ hn.1)
      simp [lookup, he, hnone, hself]
    · simp only [lookup, if_neg he, hne _ _ _ he]

end Dict

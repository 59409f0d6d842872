import Mathlib.Data.Set.Card
import Mathlib.Order.Basic
import JXPanel.PortSettings

set_option autoImplicit true

/-- The list holds the `k` least elements of the set, in increasing order. -/
structure Least {α : Type} [LinearOrder α] (S : Set α) (k : Nat) (l : List α) : Prop where
  length : l.length = k
  sorted : l.Pairwise (· < ·)
  mem : ∀ x ∈ l, x ∈ S
  least : ∀ x ∈ S, x ∉ l → ∀ y ∈ l, y < x

namespace Least
variable {α : Type} [LinearOrder α] {S : Set α} {k : Nat} {l l' : List α}

theorem nodup (h : Least S k l) : l.Nodup := h.sorted.imp fun hlt => ne_of_lt hlt

theorem first_mem (h : Least S k l) (hk : 0 < k) {x : α} (hx : x ∈ S) (hmin : ∀ y ∈ S, x ≤ y) : x ∈ l := by
  by_contra hout
  obtain ⟨y, hy⟩ := List.exists_mem_of_length_pos (h.length ▸ hk)
  exact absurd (h.least x hx hout y hy) (not_lt.2 (hmin y (h.mem y hy)))

theorem all_mem (h : Least S k l) (hS : S.Finite) (hk : S.ncard ≤ k) {x : α} (hx : x ∈ S) : x ∈ l := by
  classical
  have hcard : ((l.toFinset : Set α)).ncard = k := by
    rw [Set.ncard_coe_finset, List.toFinset_card_of_nodup h.nodup, h.length]
  have hsub : (l.toFinset : Set α) ⊆ S := fun y hy => h.mem y (List.mem_toFinset.1 hy)
  have heq := Set.eq_of_subset_of_ncard_le hsub (hcard ▸ hk) hS
  rw [← heq] at hx
  exact List.mem_toFinset.1 hx

/-- An increasing list begins with its least elements. -/
theorem of_take (hl : l.Pairwise (· < ·)) (hS : ∀ x, x ∈ S ↔ x ∈ l) (hk : k ≤ l.length) : Least S k (l.take k) := by
  refine ⟨List.length_take_of_le hk, hl.sublist (List.take_sublist k l), fun x hx => (hS x).2 (List.mem_of_mem_take hx), ?_⟩
  intro x hx hout y hy
  rw [← List.take_append_drop k l] at hl
  have hx' : x ∈ l.drop k := by
    have hmem := (hS x).1 hx
    rw [← List.take_append_drop k l] at hmem
    exact (List.mem_append.1 hmem).resolve_left hout
  exact (List.pairwise_append.1 hl).2.2 y hy x hx'

end Least

namespace JXPanel

namespace Store

/-- `getFreePorts` with the number of ports that is asked for. -/
def getFreePortsMany (s : Store) (howMany : JsVal) : Js (Option (List Int)) := do
  let howMany := if howMany.truthy then howMany else s.getPortsPerDomain
  let taken ← s.getTakenPorts
  return freePorts taken howMany (s.portRange.2 + 1 - s.portRange.1).toNat s.portRange.1 []

structure RangeIs (s : Store) (min max : Int) : Prop where
  low : (prop s.config "jx_app_min_port").parseInt = .int min
  high : (prop s.config "jx_app_max_port").parseInt = .int max
  min_pos : 0 < min
  max_pos : 0 < max

def freeWithin (taken : List JsVal) (min max : Int) : Set Int :=
  {p | min ≤ p ∧ p ≤ max ∧ JsVal.num (.int p) ∉ taken}

variable {s : Store} {min max : Int} {taken : List JsVal}

theorem RangeIs.portRange (h : s.RangeIs min max) : s.portRange = (min, max) := by
  have hbound : ∀ {v : JsVal} {n : Int} (d : Int), v.parseInt = .int n → 0 < n → portBound v d = n := by
    intro v n d hv hn
    rw [portBound, hv]
    exact if_neg (ne_of_gt hn)
  rw [Store.portRange, hbound _ h.low h.min_pos, hbound _ h.high h.max_pos]

theorem freeWithin_finite : (freeWithin taken min max).Finite :=
  (Set.finite_Icc min max).subset fun _ hp => ⟨hp.1, hp.2.1⟩

/-- The numbers that the search goes through without the taken ones. -/
theorem mem_untaken {p : Int} : p ∈ untaken taken (max + 1 - min).toNat min ↔ p ∈ freeWithin taken min max := by
  have htaken : (taken.any fun v => v.strictEq (.num (.int p))) = true ↔ JsVal.num (.int p) ∈ taken := by
    rw [List.any_eq_true]
    constructor
    · rintro ⟨v, hv, heq⟩
      rwa [Domain.eq_of_strictEq_int heq] at hv
    · exact fun hv => ⟨_, hv, decide_eq_true rfl⟩
  rw [untaken_eq, List.mem_filter, List.mem_map, Bool.not_eq_true', ← Bool.not_eq_true, htaken]
  constructor
  · rintro ⟨⟨i, hi, rfl⟩, hfree⟩
    rw [List.mem_range] at hi
    exact ⟨by omega, by omega, hfree⟩
  · rintro ⟨hmin, hmax, hfree⟩
    exact ⟨⟨(p - min).toNat, List.mem_range.2 (by omega), by omega⟩, hfree⟩

theorem length_untaken : (untaken taken (max + 1 - min).toNat min).length = (freeWithin taken min max).ncard := by
  have hset : ((untaken taken (max + 1 - min).toNat min).toFinset : Set Int) = freeWithin taken min max := by
    ext p
    rw [Finset.mem_coe, List.mem_toFinset, mem_untaken]
  have hnodup : (untaken taken (max + 1 - min).toNat min).Nodup :=
    (untaken_sorted taken _ _).imp fun hlt => ne_of_lt hlt
  rw [← hset, Set.ncard_coe_finset, List.toFinset_card_of_nodup hnodup]

/-- The search returns the least free ports of the range, and nothing when there are not as many as asked
for. Both bounds can be given. -/
theorem getFreePorts_least (hs : s.Filled) (hr : s.RangeIs min max) {k : Nat} (hk : 1 ≤ k) :
    ∃ taken r, s.getTakenPorts = .ok taken ∧ s.getFreePortsMany (.ofNat k) = .ok r ∧
      (r = none ↔ (freeWithin taken min max).ncard < k) ∧
      ∀ arr, r = some arr → Least (freeWithin taken min max) k arr ∧
        (min ∈ freeWithin taken min max → min ∈ arr) ∧
        (max ∈ freeWithin taken min max → (freeWithin taken min max).ncard = k → max ∈ arr) := by
  obtain ⟨taken, htaken, -⟩ := getTakenPorts_any hs
  have hle : ∀ m : Nat, JsVal.le (.ofNat k) (.ofNat m) = decide (k ≤ m) := fun m => JsVal.ofNat_le k m
  have htruthy : (JsVal.ofNat k).truthy = true := decide_eq_true (by omega)
  have hrun : s.getFreePortsMany (.ofNat k) = .ok (if k ≤ (freeWithin taken min max).ncard then
      some ((untaken taken (max + 1 - min).toNat min).take k) else none) := by
    have hsearch := @freePorts_eq k taken (.ofNat k) hle (max + 1 - min).toNat min [] hk
    rw [List.length_nil, Nat.zero_add, Nat.sub_zero, List.nil_append, length_untaken] at hsearch
    rw [getFreePortsMany, htaken, hr.portRange, if_pos htruthy, ← hsearch]
    rfl
  refine ⟨taken, _, htaken, hrun, ?_, fun arr harr => ?_⟩
  · split
    · rename_i henough
      exact iff_of_false (fun he => by cases he) (Nat.not_lt.2 henough)
    · rename_i hfew
      exact iff_of_true rfl (Nat.lt_of_not_le hfew)
  · split at harr
    · rename_i henough
      rw [← Option.some.inj harr]
      have hleast : Least (freeWithin taken min max) k ((untaken taken (max + 1 - min).toNat min).take k) :=
        .of_take (untaken_sorted taken _ _) (fun p => mem_untaken.symm) (length_untaken.symm ▸ henough)
      exact ⟨hleast, fun hmin => hleast.first_mem hk hmin fun p hp => hp.1,
        fun hmax hall => hleast.all_mem freeWithin_finite hall.le hmax⟩
    · cases harr

theorem getFreePorts_least_sample :
    ∃ taken r, (oneDomain "10010").getTakenPorts = .ok taken ∧ (oneDomain "10010").getFreePortsMany (.ofNat 2) = .ok r ∧
      (r = none ↔ (freeWithin taken 10000 10010).ncard < 2) ∧
      ∀ arr, r = some arr → Least (freeWithin taken 10000 10010) 2 arr ∧
        (10000 ∈ freeWithin taken 10000 10010 → 10000 ∈ arr) ∧
        (10010 ∈ freeWithin taken 10000 10010 → (freeWithin taken 10000 10010).ncard = 2 → 10010 ∈ arr) :=
  getFreePorts_least (filled_of_all (by decide +kernel))
    ⟨by decide +kernel, by decide +kernel, by decide, by decide⟩ (by decide)

end Store
end JXPanel

import Mathlib.Data.List.AList
import Mathlib.Order.Basic
import Mathlib.Tactic

namespace DynamoKV

abbrev NodeId := String

-- The results of `VectorClock.compare`.
inductive Causality
  | equal
  | dominates
  | dominated
  | concurrent
deriving DecidableEq, Repr

-- A clock is a dict from node ids to arbitrary integers. Explicit zero entries are kept.
structure VectorClock where
  counters : AList (fun _ : NodeId => Int)

namespace VectorClock

-- Lookup with a missing entry read as 0.
def get (c : VectorClock) (nodeId : NodeId) : Int :=
  (c.counters.lookup nodeId).getD 0

def incremented (c : VectorClock) (nodeId : NodeId) : VectorClock :=
  ⟨c.counters.insert nodeId (c.get nodeId + 1)⟩

def compare (c other : VectorClock) : Causality :=
  let keys    := c.counters.keys ∪ other.counters.keys
  let selfGe  := keys.all fun k => c.get k ≥ other.get k
  let otherGe := keys.all fun k => other.get k ≥ c.get k
  if selfGe && otherGe then .equal
  else if selfGe then .dominates
  else if otherGe then .dominated
  else .concurrent

def dominatesOrEqual (c other : VectorClock) : Bool :=
  c.compare other = .dominates || c.compare other = .equal

-- One iteration of the outer loop of `merge`: `result[k] = max(result.get(k, 0), v)` for all `k`.
def mergeInto (result c : VectorClock) : VectorClock :=
  c.counters.entries.foldl (fun result e => ⟨result.counters.insert e.1 (newer result e)⟩) result
where
  newer (result : VectorClock) (e : Σ _ : NodeId, Int) : Int :=
    if result.get e.1 < e.2 then e.2 else result.get e.1

def merge (clocks : List VectorClock) : VectorClock :=
  clocks.foldl mergeInto ⟨∅⟩

-- The causal order, which reads clocks up to missing entries.
instance : Preorder VectorClock where
  le c₁ c₂     := ∀ n, c₁.get n ≤ c₂.get n
  le_refl _    := fun _ => le_rfl
  le_trans _ _ _ h₁ h₂ := fun n => (h₁ n).trans (h₂ n)

theorem le_def {c₁ c₂ : VectorClock} : c₁ ≤ c₂ ↔ ∀ n, c₁.get n ≤ c₂.get n :=
  Iff.rfl

@[simp]
theorem get_empty (n : NodeId) : get ⟨∅⟩ n = 0 := by
  simp [get]

theorem get_eq_zero_of_not_mem {c : VectorClock} (h : n ∉ c.counters.keys) : c.get n = 0 := by
  rw [← AList.mem_keys, ← AList.lookup_eq_none] at h
  simp [get, h]

@[simp]
theorem get_incremented_self (c : VectorClock) (n : NodeId) :
    (c.incremented n).get n = c.get n + 1 := by
  simp [incremented, get]

theorem get_incremented_of_ne {c : VectorClock} (h : m ≠ n) :
    (c.incremented n).get m = c.get m := by
  simp [incremented, get, AList.lookup_insert_ne h]

theorem le_incremented (c : VectorClock) (n : NodeId) : c ≤ c.incremented n := by
  intro m
  by_cases h : m = n
  case pos => simp [h]
  case neg => simp [get_incremented_of_ne h]

theorem not_incremented_le (c : VectorClock) (n : NodeId) : ¬c.incremented n ≤ c := by
  intro h
  have := h n
  simp at this

section Compare

variable {c₁ c₂ : VectorClock}

-- Looking at the keys of either clock is enough, as every other entry is 0 on both sides.
theorem all_keys_iff_le :
    ((c₁.counters.keys ∪ c₂.counters.keys).all fun k => c₁.get k ≥ c₂.get k) = true ↔ c₂ ≤ c₁ := by
  simp only [List.all_eq_true, List.mem_union_iff, decide_eq_true_eq, ge_iff_le, le_def]
  constructor
  case mpr => exact fun h k _ => h k
  case mp =>
    intro h n
    by_cases hn : n ∈ c₁.counters.keys ∨ n ∈ c₂.counters.keys
    case pos => exact h n hn
    case neg =>
      push Not at hn
      simp [get_eq_zero_of_not_mem hn.left, get_eq_zero_of_not_mem hn.right]

theorem all_keys_iff_ge :
    ((c₁.counters.keys ∪ c₂.counters.keys).all fun k => c₂.get k ≥ c₁.get k) = true ↔ c₁ ≤ c₂ := by
  rw [← all_keys_iff_le]
  simp only [List.all_eq_true, List.mem_union_iff, or_comm]

instance : DecidableLE VectorClock :=
  fun _ _ => decidable_of_iff _ all_keys_iff_le

theorem compare_def :
    c₁.compare c₂ =
      if c₂ ≤ c₁ ∧ c₁ ≤ c₂ then .equal
      else if c₂ ≤ c₁ then .dominates
      else if c₁ ≤ c₂ then .dominated
      else .concurrent := by
  simp only [compare, Bool.and_eq_true, all_keys_iff_le, all_keys_iff_ge]

theorem compare_eq_equal_iff : c₁.compare c₂ = .equal ↔ c₁ ≤ c₂ ∧ c₂ ≤ c₁ := by
  rw [compare_def]
  split_ifs <;> simp_all

theorem compare_eq_dominates_iff : c₁.compare c₂ = .dominates ↔ c₂ < c₁ := by
  rw [compare_def, lt_iff_le_not_ge]
  split_ifs <;> simp_all

theorem compare_eq_dominated_iff : c₁.compare c₂ = .dominated ↔ c₁ < c₂ := by
  rw [compare_def, lt_iff_le_not_ge]
  split_ifs <;> simp_all

theorem compare_eq_concurrent_iff : c₁.compare c₂ = .concurrent ↔ ¬c₁ ≤ c₂ ∧ ¬c₂ ≤ c₁ := by
  rw [compare_def]
  split_ifs <;> simp_all

theorem dominatesOrEqual_iff : c₁.dominatesOrEqual c₂ = true ↔ c₂ ≤ c₁ := by
  simp only [dominatesOrEqual, Bool.or_eq_true, decide_eq_true_eq, compare_eq_dominates_iff,
    compare_eq_equal_iff, lt_iff_le_not_ge]
  tauto

end Compare

section Merge

theorem get_insert (c : VectorClock) (v : Int) :
    get ⟨c.counters.insert m v⟩ n = if n = m then v else c.get n := by
  split
  case isTrue h  => subst h; simp [get]
  case isFalse h => simp [get, AList.lookup_insert_ne h]

theorem get_foldl_insert (es : List (Σ _ : NodeId, Int)) (h : es.NodupKeys) (c : VectorClock) :
    (es.foldl (fun c e => ⟨c.counters.insert e.1 (mergeInto.newer c e)⟩) c).get n =
      (es.dlookup n).elim (c.get n) (mergeInto.newer c ⟨n, ·⟩) := by
  induction es generalizing c
  case nil => rfl
  case cons e es hi =>
    obtain ⟨k, v⟩ := e
    have ⟨hk, h⟩ := List.nodupKeys_cons.mp h
    rw [List.foldl_cons, hi h, get_insert]
    by_cases hn : n = k
    case pos =>
      subst hn
      simp [List.dlookup_eq_none.mpr hk]
    case neg => simp [hn, List.dlookup_cons_ne es ⟨k, v⟩ hn, mergeInto.newer, get_insert]

-- An accumulated clock never drops below 0, so a missing entry may be read as 0.
theorem get_mergeInto_le_iff {result c : VectorClock} (h : 0 ≤ result.get n) :
    (result.mergeInto c).get n ≤ k ↔ result.get n ≤ k ∧ c.get n ≤ k := by
  have he : (result.mergeInto c).get n = _ :=
    get_foldl_insert c.counters.entries c.counters.nodupKeys result
  simp only [he, get.eq_def c, AList.lookup]
  cases c.counters.entries.dlookup n
  case none   => simp; omega
  case some v => simp only [Option.elim, mergeInto.newer, Option.getD]; split <;> omega

theorem get_foldl_mergeInto_le_iff {result : VectorClock} (h : 0 ≤ result.get n)
    (cs : List VectorClock) :
    (cs.foldl mergeInto result).get n ≤ k ↔ result.get n ≤ k ∧ ∀ c ∈ cs, c.get n ≤ k := by
  induction cs generalizing result
  case nil => simp
  case cons c cs hi =>
    have h' := h.trans <| (get_mergeInto_le_iff (c := c) h |>.mp le_rfl).left
    simp [hi h', get_mergeInto_le_iff h, and_assoc]

theorem merge_get_le_iff {cs : List VectorClock} :
    (merge cs).get n ≤ k ↔ 0 ≤ k ∧ ∀ c ∈ cs, c.get n ≤ k := by
  rw [merge, get_foldl_mergeInto_le_iff] <;> simp

theorem merge_get_nonneg (cs : List VectorClock) (n : NodeId) : 0 ≤ (merge cs).get n :=
  (merge_get_le_iff.mp le_rfl).left

theorem le_merge {cs : List VectorClock} (h : c ∈ cs) : c ≤ merge cs :=
  fun _ => (merge_get_le_iff.mp le_rfl).right c h

theorem merge_le {cs : List VectorClock} (h : ∀ c ∈ cs, c ≤ d) (hd : ∀ n, 0 ≤ d.get n) :
    merge cs ≤ d :=
  fun n => merge_get_le_iff.mpr ⟨hd n, fun c hc => h c hc n⟩

-- A positive entry of a merged clock comes from one of the clocks.
theorem exists_le_get_of_le_merge_get {cs : List VectorClock} (hk : 0 < k)
    (h : k ≤ (merge cs).get n) : ∃ c ∈ cs, k ≤ c.get n := by
  by_contra hc
  push Not at hc
  have : (merge cs).get n ≤ k - 1 :=
    merge_get_le_iff.mpr ⟨by omega, fun c hm => by have := hc c hm; omega⟩
  omega

theorem lt_merge_incremented {cs : List VectorClock} (h : c ∈ cs) (n : NodeId) :
    c < (merge cs).incremented n := by
  refine lt_of_le_not_ge (le_trans (le_merge h) (le_incremented _ n)) fun hge => ?_
  exact not_incremented_le (merge cs) n <| le_trans hge (le_merge h)

end Merge
end VectorClock
end DynamoKV

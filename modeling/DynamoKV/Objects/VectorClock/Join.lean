import DynamoKV.Objects.VectorClock

-- The order that `compare` decides, and `merge` as its join.
namespace DynamoKV
namespace VectorClock

variable {a b c : VectorClock} {cs cs' : List VectorClock}

def Nonneg (c : VectorClock) : Prop :=
  ∀ e ∈ c.counters.entries, 0 ≤ e.2

theorem nonneg_iff : c.Nonneg ↔ ∀ n, 0 ≤ c.get n := by
  constructor
  case mp =>
    intro h n
    unfold get
    cases hl : c.counters.lookup n
    case none   => exact le_rfl
    case some v => exact h ⟨n, v⟩ <| AList.mem_lookup_iff.mp hl
  case mpr =>
    intro h ⟨n, v⟩ he
    have hl : c.counters.lookup n = some v := AList.mem_lookup_iff.mpr he
    have hn := h n
    rwa [get, hl, Option.getD_some] at hn

-- An upper bound of no clocks at all is only one of those clocks that the join is meant for.
structure IsJoin (cs : List VectorClock) (join : VectorClock) : Prop where
  nonneg : join.Nonneg
  upper  : ∀ c ∈ cs, join.dominatesOrEqual c
  least  : ∀ d : VectorClock, cs ≠ [] ∨ d.Nonneg → (∀ c ∈ cs, d.dominatesOrEqual c) →
    d.dominatesOrEqual join

section Compare

theorem compare_eq_equal_iff_get : a.compare b = .equal ↔ ∀ n, a.get n = b.get n := by
  simp only [compare_eq_equal_iff, le_def, ← forall_and, le_antisymm_iff]

theorem compare_equal_comm : a.compare b = .equal ↔ b.compare a = .equal := by
  rw [compare_eq_equal_iff, compare_eq_equal_iff, and_comm]

theorem compare_concurrent_comm : a.compare b = .concurrent ↔ b.compare a = .concurrent := by
  rw [compare_eq_concurrent_iff, compare_eq_concurrent_iff, and_comm]

theorem compare_dominates_comm : a.compare b = .dominates ↔ b.compare a = .dominated := by
  rw [compare_eq_dominates_iff, compare_eq_dominated_iff]

end Compare

section Merge

theorem nonneg_merge (cs : List VectorClock) : (merge cs).Nonneg :=
  nonneg_iff.mpr <| merge_get_nonneg cs

-- Negative counters are clipped, so they do not matter to the merge.
theorem merge_le_merge (h : ∀ c ∈ cs, ∃ c' ∈ cs', c ≤ c') : merge cs ≤ merge cs' := by
  refine merge_le (fun c hc => ?_) <| merge_get_nonneg cs'
  have ⟨c', hc', hle⟩ := h c hc
  exact hle.trans <| le_merge hc'

theorem isJoin_merge (h : ∀ c ∈ cs, c.Nonneg) : IsJoin cs (merge cs) where
  nonneg     := nonneg_merge cs
  upper c hc := dominatesOrEqual_iff.mpr <| le_merge hc
  least d hd hle := by
    simp only [dominatesOrEqual_iff] at hle ⊢
    refine merge_le hle ?_
    cases hd
    case inr hd  => exact nonneg_iff.mp hd
    case inl hne =>
      have ⟨c, hc⟩ := List.exists_mem_of_ne_nil cs hne
      exact fun n => (nonneg_iff.mp (h c hc) n).trans (hle c hc n)

theorem merge_congr (h : ∀ c, c ∈ cs ↔ c ∈ cs') : (merge cs).compare (merge cs') = .equal := by
  refine compare_eq_equal_iff.mpr ⟨merge_le_merge ?_, merge_le_merge ?_⟩
  · exact fun c hc => ⟨c, (h c).mp hc, le_rfl⟩
  · exact fun c hc => ⟨c, (h c).mpr hc, le_rfl⟩

theorem merge_map_merge {css : List (List VectorClock)} (h : ∀ c, c ∈ cs ↔ ∃ l ∈ css, c ∈ l) :
    (merge (css.map merge)).compare (merge cs) = .equal := by
  refine compare_eq_equal_iff.mpr ⟨?parts, ?whole⟩
  case parts =>
    refine merge_le (fun c hc => ?_) <| merge_get_nonneg cs
    obtain ⟨l, hl, rfl⟩ := List.mem_map.mp hc
    exact merge_le_merge fun c hc => ⟨c, (h c).mpr ⟨l, hl, hc⟩, le_rfl⟩
  case whole =>
    refine merge_le (fun c hc => ?_) <| merge_get_nonneg _
    have ⟨l, hl, hc⟩ := (h c).mp hc
    exact (le_merge hc).trans <| le_merge <| List.mem_map_of_mem hl

end Merge

theorem compare_order_merge_join :
    (∀ a b : VectorClock, (a.compare b = .equal ↔ ∀ n, a.get n = b.get n) ∧
      (a.compare b = .dominates ↔ b.compare a = .dominated) ∧
      (a.compare b = .equal ↔ b.compare a = .equal) ∧
      (a.compare b = .concurrent ↔ b.compare a = .concurrent)) ∧
    (∀ a : VectorClock, a.dominatesOrEqual a) ∧
    (∀ a b c : VectorClock, a.dominatesOrEqual b → b.dominatesOrEqual c → a.dominatesOrEqual c) ∧
    (∀ a b : VectorClock, a.dominatesOrEqual b → b.dominatesOrEqual a → a.compare b = .equal) ∧
    (∀ cs : List VectorClock, (∀ c ∈ cs, c.Nonneg) → IsJoin cs (merge cs)) ∧
    (∀ cs cs' : List VectorClock, (∀ c, c ∈ cs ↔ c ∈ cs') →
      (merge cs).compare (merge cs') = .equal) ∧
    ∀ (css : List (List VectorClock)) cs, (∀ c, c ∈ cs ↔ ∃ l ∈ css, c ∈ l) →
      (merge (css.map merge)).compare (merge cs) = .equal := by
  simp only [dominatesOrEqual_iff]
  refine ⟨?compare, le_refl, ?trans, ?antisymm, ?join, ?order, ?parts⟩
  case compare =>
    intro a b
    exact ⟨compare_eq_equal_iff_get, compare_dominates_comm, compare_equal_comm,
      compare_concurrent_comm⟩
  case trans    => exact fun a b c hab hbc => hbc.trans hab
  case antisymm => exact fun a b hab hba => compare_eq_equal_iff.mpr ⟨hba, hab⟩
  case join     => exact fun cs h => isJoin_merge h
  case order    => exact fun cs cs' h => merge_congr h
  case parts    => exact fun css cs h => merge_map_merge h

end VectorClock
end DynamoKV

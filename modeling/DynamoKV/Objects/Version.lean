import DynamoKV.Lib.Antichain
import DynamoKV.Objects.VectorClock

namespace DynamoKV

structure Version (α : Type*) where
  value : α
  clock : VectorClock

-- The dict form of a version, as it is stored and sent.
structure VersionDict (α : Type*) where
  value : α
  clock : AList (fun _ : NodeId => Int)

variable {α : Type*}

namespace Version

def toDict (v : Version α) : VersionDict α :=
  ⟨v.value, v.clock.counters⟩

def fromDict (d : VersionDict α) : Version α :=
  ⟨d.value, ⟨d.clock⟩⟩

@[simp]
theorem fromDict_toDict (v : Version α) : fromDict v.toDict = v :=
  rfl

@[simp]
theorem fromDict_comp_toDict : fromDict ∘ toDict = (id : Version α → Version α) :=
  rfl

-- Versions are ordered by their clocks alone.
instance : Preorder (Version α) where
  le v w       := v.clock ≤ w.clock
  le_refl v    := le_refl v.clock
  le_trans _ _ _ h₁ h₂ := le_trans (α := VectorClock) h₁ h₂

instance : DecidableLE (Version α) :=
  fun v w => inferInstanceAs (Decidable (v.clock ≤ w.clock))

theorem le_def {v w : Version α} : v ≤ w ↔ v.clock ≤ w.clock :=
  Iff.rfl

end Version

-- `existing` is returned as it is when it already supersedes `incoming`.
def reconcile (existing : List (Version α)) (incoming : Version α) : List (Version α) :=
  if existing.any fun v => v.clock.dominatesOrEqual incoming.clock then existing
  else (existing.filter fun v => incoming.clock.compare v.clock ≠ .dominates) ++ [incoming]

theorem reconcile_eq_insertMax (existing : List (Version α)) (incoming : Version α) :
    reconcile existing incoming = Antichain.insertMax existing incoming := by
  have hany : (existing.any fun v => v.clock.dominatesOrEqual incoming.clock) = true ↔
      ∃ v ∈ existing, incoming ≤ v := by
    simp [List.any_eq_true, VectorClock.dominatesOrEqual_iff, Version.le_def]
  unfold reconcile Antichain.insertMax
  split
  case isTrue h  => rw [if_pos (hany.mp h)]
  case isFalse h =>
    rw [if_neg (hany.not.mp h)]
    congr 1
    apply List.filter_congr
    intro v hv
    -- No sibling is at or above `incoming`, so one below it is strictly below it.
    have hle : ¬incoming.clock ≤ v.clock := fun hle => h <| hany.mpr ⟨v, hv, hle⟩
    simp [VectorClock.compare_eq_dominates_iff, lt_iff_le_not_ge, hle, Version.le_def]

def reconcileAll (merged versions : List (Version α)) : List (Version α) :=
  versions.foldl reconcile merged

-- The nested loops of `_merged_read` over the sibling lists of all replies.
def mergeReplies (results : List (List (Version α))) : List (Version α) :=
  results.foldl reconcileAll []

theorem reconcileAll_eq_insertAll (merged versions : List (Version α)) :
    reconcileAll merged versions = Antichain.insertAll merged versions := by
  unfold reconcileAll Antichain.insertAll
  congr
  funext _ _
  apply reconcile_eq_insertMax

theorem mergeReplies_eq_insertAll (results : List (List (Version α))) :
    mergeReplies results = Antichain.insertAll [] results.flatten := by
  have h : ∀ merged, results.foldl reconcileAll merged =
      Antichain.insertAll merged results.flatten := by
    induction results
    case nil           => simp
    case cons vs _ hi  => simp [hi, reconcileAll_eq_insertAll, Antichain.insertAll_append]
  exact h []

section Compare

variable {v w : Version α}

theorem compare_eq_equal_iff : v.clock.compare w.clock = .equal ↔ AntisymmRel (· ≤ ·) v w :=
  VectorClock.compare_eq_equal_iff

theorem compare_eq_concurrent_iff :
    v.clock.compare w.clock = .concurrent ↔ IncompRel (· ≤ ·) v w :=
  VectorClock.compare_eq_concurrent_iff

theorem compare_eq_dominates_iff : v.clock.compare w.clock = .dominates ↔ w ≤ v ∧ ¬v ≤ w :=
  VectorClock.compare_eq_dominates_iff.trans lt_iff_le_not_ge

end Compare

-- The same clocks are represented, up to missing entries and order.
def SameClocks (vs ws : List (Version α)) : Prop :=
  (∀ v ∈ vs, ∃ w ∈ ws, v.clock.compare w.clock = .equal) ∧
  (∀ w ∈ ws, ∃ v ∈ vs, w.clock.compare v.clock = .equal)

theorem sameClocks_iff {vs ws : List (Version α)} :
    SameClocks vs ws ↔ Antichain.SameClasses vs ws := by
  simp only [SameClocks, Antichain.SameClasses, compare_eq_equal_iff]

end DynamoKV

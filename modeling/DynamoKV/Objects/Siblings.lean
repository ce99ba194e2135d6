import DynamoKV.Objects.Node

namespace DynamoKV

variable {α : Type*}

inductive LocalOp (α : Type*)
  | putLocal (key : Key) (version : Version α)
  | deleteLocal (key : Key)

namespace LocalOp

def apply (n : Node α) : LocalOp α → Node α
  | putLocal key version => n.putLocal key version
  | deleteLocal key      => (n.deleteLocal key).2

def run (history : List (LocalOp α)) : Node α :=
  history.foldl apply .empty

def deliver (key : Key) (versions : List (Version α)) : LocalOp α → List (Version α)
  | putLocal key' version => if key' = key then versions ++ [version] else versions
  | deleteLocal key'      => if key' = key then [] else versions

-- The versions a replica received for a key since the last `delete_local`, in order.
def delivered (key : Key) (history : List (LocalOp α)) : List (Version α) :=
  history.foldl (deliver key) []

theorem isMaximal_apply {n : Node α} (m : Antichain.IsMaximal vs (n.getLocal k)) (op : LocalOp α) :
    Antichain.IsMaximal (op.deliver k vs) ((op.apply n).getLocal k) := by
  cases op <;> simp only [deliver, apply] <;> split
  case putLocal.isTrue h =>
    subst h
    rw [Node.getLocal_putLocal_self, reconcile_eq_insertMax]
    exact m.insertMax _
  case putLocal.isFalse h    => rwa [Node.getLocal_putLocal_of_ne (Ne.symm h)]
  case deleteLocal.isTrue h  => simpa [h] using Antichain.IsMaximal.nil
  case deleteLocal.isFalse h => rwa [Node.getLocal_deleteLocal_of_ne (Ne.symm h)]

theorem isMaximal_run (history : List (LocalOp α)) (k : Key) :
    Antichain.IsMaximal (delivered k history) ((run history).getLocal k) := by
  suffices h : ∀ n vs, Antichain.IsMaximal vs (Node.getLocal n k) →
      Antichain.IsMaximal (history.foldl (deliver k) vs) ((history.foldl apply n).getLocal k) from
    h .empty [] .nil
  induction history
  case nil           => exact fun _ _ m => m
  case cons op _ hi  => exact fun _ _ m => hi _ _ <| isMaximal_apply m op

end LocalOp

-- `stored` is the maximal antichain of the versions in `delivered`, in terms of `compare`.
structure SiblingsOf (delivered stored : List (Version α)) : Prop where
  concurrent : stored.Pairwise fun v w => v.clock.compare w.clock = .concurrent
  covered    : ∀ v ∈ delivered, ∃ w ∈ stored, w.clock.dominatesOrEqual v.clock
  maximal    : ∀ v ∈ delivered,
    (∀ w ∈ delivered, w.clock.compare v.clock ≠ .dominates) ↔
      ∃ w ∈ stored, v.clock.compare w.clock = .equal
  first      : ∀ w ∈ stored, ∃ pre post,
    delivered = pre ++ w :: post ∧ ∀ v ∈ pre, v.clock.compare w.clock ≠ .equal

theorem SiblingsOf.of_isMaximal {vs ws : List (Version α)} (m : Antichain.IsMaximal vs ws) :
    SiblingsOf vs ws where
  concurrent := m.pairwise.imp compare_eq_concurrent_iff.mpr
  covered v hv := by
    simp only [VectorClock.dominatesOrEqual_iff]
    exact m.covers v hv
  maximal v hv := by
    simp only [ne_eq, compare_eq_dominates_iff, compare_eq_equal_iff, not_and, not_not]
    exact m.maximal_iff hv
  first := by
    simpa only [ne_eq, compare_eq_equal_iff] using m.first

open LocalOp in
-- Replicas store the maximal antichain of what they received since the last delete, whichever the
-- order, and merged reads compute the maximal antichain of what all queried replicas received.
theorem replica_state_and_merged_reads_maximal :
    (∀ (history : List (LocalOp α)) key,
      SiblingsOf (delivered key history) ((run history).getLocal key)) ∧
    (∀ (history₁ history₂ : List (LocalOp α)) key,
      (∀ v, v ∈ delivered key history₁ ↔ v ∈ delivered key history₂) →
      SameClocks ((run history₁).getLocal key) ((run history₂).getLocal key)) ∧
    (∀ (histories : List (List (LocalOp α))) versions key,
      (∀ v, v ∈ versions ↔ ∃ history ∈ histories, v ∈ delivered key history) →
      SameClocks (mergeReplies <| histories.map (run · |>.getLocal key))
        (reconcileAll [] versions)) := by
  refine ⟨?siblings, ?order, ?merged⟩
  case siblings => exact fun history key => .of_isMaximal <| isMaximal_run history key
  case order =>
    intro history₁ history₂ key h
    rw [sameClocks_iff]
    apply (isMaximal_run history₁ key).sameClasses (isMaximal_run history₂ key)
    · exact fun v hv => .of_mem <| (h v).mp hv
    · exact fun v hv => .of_mem <| (h v).mpr hv
  case merged =>
    intro histories versions key h
    rw [sameClocks_iff, mergeReplies_eq_insertAll, reconcileAll_eq_insertAll]
    have hm : List.Forall₂ Antichain.IsMaximal (histories.map (delivered key))
        (histories.map (run · |>.getLocal key)) := by
      simp only [List.forall₂_map_left_iff, List.forall₂_map_right_iff, List.forall₂_same]
      exact fun history _ => isMaximal_run history key
    refine Antichain.insertAll_flatten_sameClasses hm fun v => (h v).trans ?_
    simp

end DynamoKV

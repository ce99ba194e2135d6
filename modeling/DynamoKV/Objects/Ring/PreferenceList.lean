import DynamoKV.Lib.Log
import DynamoKV.Objects.Ring.Disruption
import Mathlib.Data.Finset.Sort

-- Preference lists as clockwise walks around the circle of all points.
namespace DynamoKV
namespace HashRing

variable {hash : String → Nat} {r : HashRing} {key : String} {n : Nat} {m : NodeId}

-- The points of the members, in increasing order.
def circle (hash : String → Nat) (virtualNodes : Nat) (members : Finset NodeId) : List Nat :=
  ((members ×ˢ Finset.range virtualNodes).image fun (m, i) => hash (label m i)).sort

def Owns (hash : String → Nat) (virtualNodes : Nat) (members : Finset NodeId) (point : Nat)
    (m : NodeId) : Prop :=
  m ∈ members ∧ ∃ i < virtualNodes, point = hash (label m i)

-- `owners` are those of the points in the order of a walk, which starts at the first point at or
-- after the hash of a key and wraps around to the smallest point.
def Clockwise (hash : String → Nat) (virtualNodes : Nat) (members : Finset NodeId) (key : String)
    (owners : List NodeId) : Prop :=
  List.Forall₂ (Owns hash virtualNodes members)
    (Circle.walkFrom (circle hash virtualNodes members) (hash key)) owners

theorem mem_circle {v : Nat} {members : Finset NodeId} :
    p ∈ circle hash v members ↔ ∃ m, Owns hash v members p m := by
  simp only [circle, Owns, Finset.mem_sort, Finset.mem_image, Finset.mem_product, Finset.mem_range,
    Prod.exists, eq_comm, and_assoc, exists_and_left]

-- What the source says, and relies on, about the list of length `n` for a key.
structure IsPreferenceList (hash : String → Nat) (r : HashRing) (key : String) (n : Nat)
    (owners prefs : List NodeId) : Prop where
  eq_take : prefs = owners.eraseDups.take (min n r.nodes.card)
  length  : prefs.length = min n r.nodes.card
  nodup   : prefs.Nodup
  members : ∀ m ∈ prefs, m ∈ r.nodes
  head    : r.getNode hash key = prefs.head?
  shorter : ∀ m, 0 < m → m ≤ n →
    ∃ prefs', r.getPreferenceList hash key m = some prefs' ∧ prefs' <+: prefs
  holder  : ∃ hintHolder : Option NodeId,
    r.getPreferenceList hash key (prefs.length + 1) = some (prefs ++ hintHolder.toList) ∧
    ∀ m ∈ hintHolder, m ∉ prefs

namespace Canonical

variable (c : Canonical hash r)
include c

theorem sortedHashes_eq_circle : r.sortedHashes = circle hash r.virtualNodes r.nodes := by
  refine c.inStep.sorted.eq_of_mem_iff (Finset.sortedLT_sort _) fun p => ?_
  rw [c.mem_sortedHashes]
  apply Iff.symm
  exact mem_circle

theorem clockwise (key : String) : Clockwise hash r.virtualNodes r.nodes key <|
    (Circle.walkFrom r.sortedHashes (hash key)).filterMap r.ring.lookup := by
  have h : ∀ p ∈ Circle.walkFrom r.sortedHashes (hash key), (r.ring.lookup p).isSome :=
    fun p hp => c.isSome_lookup <| Circle.mem_walkFrom.mp hp
  rw [Clockwise, ← c.sortedHashes_eq_circle]
  exact (Log.forall₂_filterMap h).imp fun _ _ hl => c.lookup.mp hl

theorem take_owners (hv : 0 < r.virtualNodes) (key : String) (n : Nat) :
    (owners hash r key).take (min n r.nodes.card) = (owners hash r key).take n := by
  rw [← c.length_owners key hv, ← List.take_eq_take_min]

theorem isPreferenceList (hv : 0 < r.virtualNodes) (hm : m ∈ r.nodes) (hn : 0 < n)
    (key : String) :
    IsPreferenceList hash r key n
      ((Circle.walkFrom r.sortedHashes (hash key)).filterMap r.ring.lookup)
      ((owners hash r key).take n) where
  eq_take := (c.take_owners hv key n).symm
  length  := by rw [List.length_take, c.length_owners key hv]
  nodup   := (nodup_owners hash r key).sublist <| List.take_sublist ..
  members := fun x hx => (c.mem_owners key hv).mp <| List.mem_of_mem_take hx
  head    := by rw [c.getNode_eq hv hm, List.head?_take, if_neg hn.ne']
  shorter := by
    intro k hk hkn
    refine ⟨_, c.getPreferenceList_eq hv hm hk, ?_⟩
    exact List.take_prefix_take_left hkn
  holder  := by
    have ht := c.take_owners hv key n
    rw [← ht, List.length_take, c.length_owners key hv, min_assoc, min_self]
    -- The next owner, if there is one, has not been met before.
    refine ⟨(owners hash r key)[min n r.nodes.card]?, ?_, fun x hx hmem => ?_⟩
    · rw [c.getPreferenceList_eq hv hm (Nat.succ_pos _), List.take_add_one]
    · have hs := (nodup_owners hash r key).sublist <| List.take_sublist (min n r.nodes.card + 1) _
      rw [List.take_add_one, Option.mem_def.mp hx] at hs
      exact List.disjoint_of_nodup_append hs hmem List.mem_cons_self

end Canonical

-- Some point of the ring belongs to the node.
def Places (r : HashRing) (m : NodeId) : Prop :=
  ∃ p ∈ r.sortedHashes, r.ring.lookup p = some m

namespace Built

variable (b : Built r)
include b

theorem getPreferenceList_eq_collect (key : String) (n : Nat) :
    r.getPreferenceList hash key n = if r.sortedHashes = [] then none else
      some <| Circle.collect (min n r.nodes.card) [] <|
        (r.sortedHashes.rotate (r.firstPoint hash key)).filterMap r.ring.lookup := by
  rw [getPreferenceList, walk_range_eq_collect]
  exact fun p hp => Option.isSome_iff_exists.mpr <| b.point p hp

-- The list with one more node has at most one node which is not in the list, and it has one if some
-- point belongs to such a node. This needs no assumption on the points.
theorem exists_spare (h : r.getPreferenceList hash key n = some prefs) :
    ∃ spare : Option NodeId,
      r.getPreferenceList hash key (prefs.length + 1) = some (prefs ++ spare.toList) ∧
      (∀ m ∈ spare, m ∉ prefs) ∧
      (spare.isSome ↔ ∃ m, r.Places m ∧ m ∉ prefs) := by
  have hne : r.sortedHashes ≠ [] := by
    intro he
    simp [getPreferenceList, he] at h
  rw [b.getPreferenceList_eq_collect, if_neg hne, Option.some_inj] at h
  rw [b.getPreferenceList_eq_collect, if_neg hne]
  generalize hl : (r.sortedHashes.rotate (r.firstPoint hash key)).filterMap r.ring.lookup = l at *
  have owner : ∀ m, m ∈ l.eraseDups ↔ r.Places m := by
    simp [Places, List.mem_eraseDups, ← hl, List.mem_filterMap]
  have hc : l.eraseDups.length ≤ r.nodes.card := by
    rw [← List.toFinset_card_of_nodup <| Circle.nodup_eraseDups l]
    refine Finset.card_le_card fun m hm => ?_
    obtain ⟨p, -, hp⟩ := (owner m).mp <| List.mem_toFinset.mp hm
    exact b.owner p m hp
  subst h
  obtain ⟨hnew, hsome⟩ := Circle.next_of_prefix (Circle.nodup_eraseDups l) <|
    Circle.collect_prefix (min n r.nodes.card) l
  refine ⟨_, congrArg some <| Circle.collect_succ hc _, hnew, hsome.trans ?_⟩
  simp only [owner]

end Built

theorem preferenceList_clockwise {v : Nat} {nodes : List NodeId} {calls : List RingCall}
    (hv : 0 < v) (hd : Set.InjOn hash (labels v (involved nodes calls)))
    (h : history hash v nodes calls = some r) (hr : r.nodes.Nonempty) (key : String) :
    ∃ owners, Clockwise hash v r.nodes key owners ∧
      ∀ n > 0, ∃ prefs, r.getPreferenceList hash key n = some prefs ∧
        IsPreferenceList hash r key n owners prefs := by
  obtain ⟨r', e, c, -, rfl⟩ := canonical_history hd
  cases Option.some.inj <| h.symm.trans e
  obtain ⟨m, hm⟩ := hr
  refine ⟨_, c.clockwise key, fun n hn => ?_⟩
  exact ⟨_, c.getPreferenceList_eq hv hm hn, c.isPreferenceList hv hm hn key⟩

theorem preferenceList_clockwise_two : ∃ owners,
    Clockwise byFirstLetter 1 (ofNodes byFirstLetter ["b", "c"] 1).nodes "k" owners ∧
    ∀ n > 0, ∃ prefs,
      (ofNodes byFirstLetter ["b", "c"] 1).getPreferenceList byFirstLetter "k" n = some prefs ∧
      IsPreferenceList byFirstLetter (ofNodes byFirstLetter ["b", "c"] 1) "k" n owners prefs := by
  have hd : Set.InjOn byFirstLetter (labels 1 (involved ["b", "c"] [])) :=
    injOn_byFirstLetter (by simp [involved])
  exact @preferenceList_clockwise byFirstLetter _ 1 ["b", "c"] [] Nat.one_pos hd rfl
    ⟨"b", by decide⟩ "k"

end HashRing
end DynamoKV

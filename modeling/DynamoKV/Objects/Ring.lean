import DynamoKV.Objects.VectorClock
import Mathlib.Data.List.Sort

namespace DynamoKV

-- Points on the ring are hashes of labels. The hash function is a parameter of each operation.
structure HashRing where
  virtualNodes : Nat
  ring         : AList (fun _ : Nat => NodeId)
  sortedHashes : List Nat
  nodes        : Finset NodeId

namespace HashRing

variable (hash : String → Nat)

def empty (virtualNodes : Nat) : HashRing where
  virtualNodes := virtualNodes
  ring         := ∅
  sortedHashes := []
  nodes        := ∅

def label (nodeId : NodeId) (i : Nat) : String :=
  nodeId ++ "#" ++ toString i

def bisectLeft (hashes : List Nat) (h : Nat) : Nat :=
  (hashes.takeWhile (· < h)).length

-- `self._ring[h] = node_id` and `bisect.insort(self._sorted_hashes, h)`.
def addPoint (nodeId : NodeId) (r : HashRing) (i : Nat) : HashRing :=
  let h := hash (label nodeId i)
  { r with
    ring         := r.ring.insert h nodeId
    sortedHashes := r.sortedHashes.orderedInsert (· ≤ ·) h }

def addNode (r : HashRing) (nodeId : NodeId) : HashRing :=
  if nodeId ∈ r.nodes then r
  else (List.range r.virtualNodes).foldl (addPoint hash nodeId)
    { r with nodes := insert nodeId r.nodes }

def ofNodes (nodes : List NodeId) (virtualNodes : Nat) : HashRing :=
  nodes.foldl (addNode hash) (empty virtualNodes)

-- `del self._ring[h]` and `self._sorted_hashes.pop(idx)`, both of which raise when there is nothing
-- to remove.
def removePoint (nodeId : NodeId) (r : HashRing) (i : Nat) : Option HashRing := do
  let h := hash (label nodeId i)
  guard (h ∈ r.ring)
  let idx := bisectLeft r.sortedHashes h
  guard (idx < r.sortedHashes.length)
  return { r with ring := r.ring.erase h, sortedHashes := r.sortedHashes.eraseIdx idx }

def removeNode (r : HashRing) (nodeId : NodeId) : Option HashRing :=
  if nodeId ∉ r.nodes then some r
  else (List.range r.virtualNodes).foldlM (removePoint hash nodeId)
    { r with nodes := r.nodes.erase nodeId }

-- The index of the first point at or after the hash of a key.
def firstPoint (r : HashRing) (key : String) : Nat :=
  let start := bisectLeft r.sortedHashes (hash key)
  if start = r.sortedHashes.length then 0 else start

def getNode (r : HashRing) (key : String) : Option NodeId :=
  if r.sortedHashes = [] then none
  else r.sortedHashes[r.firstPoint hash key]?.bind r.ring.lookup

-- The loop of `get_preference_list`. The elements of `seen` are those of `result`.
def walk (r : HashRing) (start target : Nat) (result : List NodeId) :
    List Nat → Option (List NodeId)
  | []      => some result
  | i :: is => do
    let h ← r.sortedHashes[(start + i) % r.sortedHashes.length]?
    let nodeId ← r.ring.lookup h
    if nodeId ∈ result then r.walk start target result is
    else
      let result := result ++ [nodeId]
      if result.length = target then some result else r.walk start target result is

-- There is no result when the ring has no nodes, for which the source raises an exception.
def getPreferenceList (r : HashRing) (key : String) (n : Nat) : Option (List NodeId) :=
  if r.sortedHashes = [] then none
  else
    let target := min n r.nodes.card
    r.walk (r.firstPoint hash key) target [] (List.range r.sortedHashes.length)

-- Positions are fractions of the circle. The source rounds them to floats.
def sortedPoints (r : HashRing) : Option (List (ℚ × NodeId)) :=
  r.sortedHashes.mapM fun h => (r.ring.lookup h).map fun nodeId => ((h : ℚ) / 2 ^ 64, nodeId)

-- What is known of a ring that was built by adding nodes.
structure Built (r : HashRing) : Prop where
  point : ∀ h ∈ r.sortedHashes, ∃ nodeId, r.ring.lookup h = some nodeId
  owner : ∀ h nodeId, r.ring.lookup h = some nodeId → nodeId ∈ r.nodes

namespace Built

variable {hash} {r : HashRing}

theorem empty (virtualNodes : Nat) : Built (empty virtualNodes) where
  point := by simp [HashRing.empty]
  owner := by simp [HashRing.empty]

theorem addPoint (b : Built r) (hn : nodeId ∈ r.nodes) : Built (r.addPoint hash nodeId i) where
  point h hh := by
    simp only [HashRing.addPoint, List.mem_orderedInsert] at hh ⊢
    by_cases he : h = hash (label nodeId i)
    case pos => exact ⟨nodeId, he ▸ AList.lookup_insert _⟩
    case neg =>
      rw [AList.lookup_insert_ne he]
      exact b.point h <| hh.resolve_left he
  owner h m hm := by
    simp only [HashRing.addPoint] at hm ⊢
    by_cases he : h = hash (label nodeId i)
    case pos =>
      subst he
      rw [AList.lookup_insert] at hm
      exact Option.some.inj hm ▸ hn
    case neg =>
      rw [AList.lookup_insert_ne he] at hm
      exact b.owner h m hm

theorem foldl_addPoint (b : Built r) (hn : nodeId ∈ r.nodes) (is : List Nat) :
    Built (is.foldl (HashRing.addPoint hash nodeId) r) := by
  induction is generalizing r
  case nil         => exact b
  case cons i _ hi => exact hi (b.addPoint hn) hn

theorem addNode (b : Built r) (nodeId : NodeId) : Built (r.addNode hash nodeId) := by
  unfold HashRing.addNode
  split
  case isTrue  => exact b
  case isFalse =>
    refine foldl_addPoint ?_ (by simp) _
    exact { point := b.point, owner := fun h m hm => by simp [b.owner h m hm] }

end Built

theorem nodes_foldl_addPoint (is : List Nat) (r : HashRing) :
    (is.foldl (addPoint hash nodeId) r).nodes = r.nodes := by
  induction is generalizing r
  case nil         => rfl
  case cons i _ hi => exact hi _

theorem nodes_addNode (r : HashRing) (nodeId : NodeId) :
    (r.addNode hash nodeId).nodes = insert nodeId r.nodes := by
  unfold addNode
  split
  case isTrue h => exact (Finset.insert_eq_of_mem h).symm
  case isFalse  => exact nodes_foldl_addPoint ..

theorem built_ofNodes (nodes : List NodeId) (virtualNodes : Nat) :
    Built (ofNodes hash nodes virtualNodes) := by
  suffices h : ∀ r, Built r → Built (nodes.foldl (addNode hash) r) from h _ <| .empty _
  induction nodes
  case nil         => exact fun _ b => b
  case cons n _ hi => exact fun _ b => hi _ <| b.addNode n

-- The list found so far, which the loop only ever extends by other members up to the target.
structure Walked (r : HashRing) (target : Nat) (result : List NodeId) : Prop where
  nodup  : result.Nodup
  member : ∀ m ∈ result, m ∈ r.nodes
  bound  : 0 < target → result.length ≤ target

section Walk

variable {r : HashRing} {result result' : List NodeId}

theorem Walked.append (w : Walked r target result) (hn : m ∈ r.nodes) (hm : m ∉ result)
    (hl : 0 < target → result.length < target) : Walked r target (result ++ [m]) where
  nodup := by
    refine w.nodup.append (by simp) fun x hx hm' => ?_
    exact hm <| List.mem_singleton.mp hm' ▸ hx
  member x hx := by
    cases List.mem_append.mp hx
    case inl h => exact w.member x h
    case inr h => exact List.mem_singleton.mp h ▸ hn
  bound ht := by simpa using hl ht

theorem Walked.walk (b : Built r) (w : Walked r target result)
    (hl : 0 < target → result.length < target)
    (h : r.walk start target result is = some result') : Walked r target result' := by
  induction is generalizing result <;> simp only [HashRing.walk] at h
  case nil => exact Option.some.inj h ▸ w
  case cons i is hi =>
    have ⟨p, _, h⟩ := Option.bind_eq_some_iff.mp h
    have ⟨m, hm, h⟩ := Option.bind_eq_some_iff.mp h
    split at h
    case isTrue => exact hi w hl h
    case isFalse hr =>
      have w' := w.append (b.owner p m hm) hr hl
      split at h
      case isTrue    => exact Option.some.inj h ▸ w'
      case isFalse hne =>
        exact hi w' (fun ht => lt_of_le_of_ne (w'.bound ht) hne) h

theorem walk_ne_nil (h : r.walk start target result is = some result') (hr : result ≠ []) :
    result' ≠ [] := by
  induction is generalizing result <;> simp only [walk] at h
  case nil => exact Option.some.inj h ▸ hr
  case cons i is hi =>
    have ⟨p, _, h⟩ := Option.bind_eq_some_iff.mp h
    have ⟨m, _, h⟩ := Option.bind_eq_some_iff.mp h
    have happ : result ++ [m] ≠ [] := by simp
    split_ifs at h
    case pos => exact hi h hr
    case pos => exact Option.some.inj h ▸ happ
    case neg => exact hi h happ

end Walk

section PreferenceList

variable {hash} {r : HashRing} {prefs : List NodeId}

theorem getPreferenceList_ne_nil (h : r.getPreferenceList hash key n = some prefs) :
    prefs ≠ [] := by
  simp only [getPreferenceList, Option.ite_none_left_eq_some] at h
  have ⟨hs, h⟩ := h
  have ⟨t, ht⟩ := Nat.exists_eq_succ_of_ne_zero <| mt List.length_eq_zero_iff.mp hs
  rw [ht, List.range_succ_eq_map] at h
  simp only [walk, List.not_mem_nil, if_false, List.nil_append] at h
  have ⟨p, _, h⟩ := Option.bind_eq_some_iff.mp h
  have ⟨m, _, h⟩ := Option.bind_eq_some_iff.mp h
  have hm : [m] ≠ [] := by simp
  split_ifs at h
  case pos => exact Option.some.inj h ▸ hm
  case neg => exact walk_ne_nil h hm

theorem walked_getPreferenceList (b : Built r) (h : r.getPreferenceList hash key n = some prefs) :
    Walked r (min n r.nodes.card) prefs := by
  simp only [getPreferenceList] at h
  split at h
  case isTrue  => contradiction
  case isFalse => exact Walked.walk b ⟨.nil, by simp, by simp⟩ (by simp) h

theorem getPreferenceList_nodup (b : Built r) (h : r.getPreferenceList hash key n = some prefs) :
    prefs.Nodup :=
  walked_getPreferenceList b h |>.nodup

theorem getPreferenceList_length_le (b : Built r)
    (h : r.getPreferenceList hash key n = some prefs) (hn : 0 < n) : prefs.length ≤ n := by
  have w := walked_getPreferenceList b h
  have ⟨m, hm⟩ := List.exists_mem_of_ne_nil _ <| getPreferenceList_ne_nil h
  have hc : 0 < r.nodes.card := Finset.card_pos.mpr ⟨m, w.member m hm⟩
  exact (w.bound <| lt_min hn hc).trans (min_le_left ..)

end PreferenceList
end HashRing
end DynamoKV

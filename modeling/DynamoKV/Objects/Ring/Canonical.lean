import DynamoKV.Lib.Circle
import DynamoKV.Objects.Ring

-- The ring after any sequence of `add_node` and `remove_node` calls is a function of its members.
namespace DynamoKV

inductive RingCall
  | add (nodeId : NodeId)
  | remove (nodeId : NodeId)

def RingCall.nodeId : RingCall → NodeId
  | add nodeId | remove nodeId => nodeId

-- What a call means for the set of members.
def RingCall.apply (nodes : Finset NodeId) : RingCall → Finset NodeId
  | add nodeId    => insert nodeId nodes
  | remove nodeId => nodes.erase nodeId

theorem RingCall.apply_subset {nodes : Finset NodeId} {s : Set NodeId} (l : RingCall)
    (hs : ↑nodes ⊆ s) (hl : l.nodeId ∈ s) : ↑(l.apply nodes) ⊆ s := by
  cases l
  case add m    => simpa [apply, Set.insert_subset_iff] using ⟨hl, hs⟩
  case remove m => exact fun x hx => hs <| Finset.mem_of_mem_erase hx

namespace HashRing

variable (hash : String → Nat)

def call (r : HashRing) : RingCall → Option HashRing
  | .add nodeId    => r.addNode hash nodeId
  | .remove nodeId => r.removeNode hash nodeId

-- A ring that was constructed from a list of nodes and then changed.
def history (virtualNodes : Nat) (nodes : List NodeId) (calls : List RingCall) : Option HashRing :=
  calls.foldlM (call hash) (ofNodes hash nodes virtualNodes)

def members (nodes : List NodeId) (calls : List RingCall) : Finset NodeId :=
  calls.foldl RingCall.apply nodes.toFinset

def involved (nodes : List NodeId) (calls : List RingCall) : Set NodeId :=
  {m | m ∈ nodes ∨ ∃ c ∈ calls, c.nodeId = m}

def labels (virtualNodes : Nat) (nodes : Set NodeId) : Set String :=
  {l | ∃ m ∈ nodes, ∃ i < virtualNodes, l = label m i}

variable {hash} {r r' : HashRing}

section Labels

theorem toDigits_no_hash (i : Nat) : '#' ∉ Nat.toDigits 10 i := fun h => by
  have := Nat.isDigit_of_mem_toDigits (by decide) (by decide) h
  simp [Char.isDigit] at this

theorem reverse_toList_label (m : NodeId) (i : Nat) :
    (label m i).toList.reverse = (Nat.toDigits 10 i).reverse ++ '#' :: m.toList.reverse := by
  simp [label]

-- The index is what follows the last '#'.
theorem label_inj (h : label m i = label n j) : m = n ∧ i = j := by
  have index : ∀ m i, (label m i).toList.reverse.takeWhile (· ≠ '#') =
      (Nat.toDigits 10 i).reverse := by
    intro m i
    rw [reverse_toList_label, List.takeWhile_append_of_pos, List.takeWhile_cons_of_neg (by simp),
      List.append_nil]
    intro c hc
    simpa using ne_of_mem_of_not_mem (List.mem_reverse.mp hc) (toDigits_no_hash i)
  have hd : Nat.toDigits 10 i = Nat.toDigits 10 j := by
    rw [← List.reverse_inj, ← index m i, ← index n j, h]
  have hl := congrArg (List.reverse ∘ String.toList) h
  simp only [Function.comp, reverse_toList_label, hd] at hl
  have ⟨_, hm⟩ := List.cons.inj <| List.append_cancel_left hl
  refine ⟨String.toList_inj.mp <| List.reverse_inj.mp hm, ?_⟩
  rw [← Nat.ofDigitChars_ten_toDigits (n := i), hd, Nat.ofDigitChars_ten_toDigits]

-- Labels which are told apart by the hash function are told apart by their points.
theorem hash_label_inj {s : Set NodeId} (hd : Set.InjOn hash (labels v s)) (hm : m ∈ s) (hi : i < v)
    (hn : n ∈ s) (hj : j < v) (h : hash (label m i) = hash (label n j)) : m = n ∧ i = j :=
  label_inj <| hd ⟨m, hm, i, hi, rfl⟩ ⟨n, hn, j, hj, rfl⟩ h

theorem labels_mono {s t : Set NodeId} (h : s ⊆ t) : labels v s ⊆ labels v t :=
  fun _ ⟨m, hm, hl⟩ => ⟨m, h hm, hl⟩

end Labels

-- The sorted list and the dict have the same points.
structure InStep (r : HashRing) : Prop where
  sorted  : r.sortedHashes.SortedLT
  mem_iff : ∀ {h}, h ∈ r.sortedHashes ↔ h ∈ r.ring

variable {is : List Nat}

def points (hash : String → Nat) (m : NodeId) (is : List Nat) : List Nat :=
  is.map fun i => hash (label m i)

@[simp]
theorem points_cons : points hash m (i :: is) = hash (label m i) :: points hash m is :=
  rfl

theorem nodup_points {s : Set NodeId} (hd : Set.InjOn hash (labels v s)) (hm : m ∈ s) :
    (points hash m (.range v)).Nodup := by
  refine List.Nodup.map_on (fun i hi j hj h => ?_) List.nodup_range
  exact (hash_label_inj hd hm (List.mem_range.mp hi) hm (List.mem_range.mp hj) h).right

theorem mem_points : h ∈ points hash m (.range v) ↔ ∃ i < v, h = hash (label m i) := by
  simp [points, eq_comm]

section AddPoints

theorem InStep.addPoint (s : InStep r) (hn : hash (label m i) ∉ r.ring) :
    InStep (r.addPoint hash m i) where
  sorted := by
    have hn' : hash (label m i) ∉ r.sortedHashes := fun h => hn <| s.mem_iff.mp h
    have hd := List.nodup_cons.mpr ⟨hn', s.sorted.nodup⟩
    refine List.sortedLT_iff_nodup_and_sortedLE.mpr ⟨?_, ?_⟩
    · exact (List.perm_orderedInsert (· ≤ ·) _ _).nodup_iff.mpr hd
    · exact (s.sorted.sortedLE.pairwise.orderedInsert _ _).sortedLE
  mem_iff := by
    simp [HashRing.addPoint, s.mem_iff]

theorem InStep.foldl_addPoint (s : InStep r) (hd : (points hash m is).Nodup)
    (hn : ∀ h ∈ points hash m is, h ∉ r.ring) : InStep (is.foldl (HashRing.addPoint hash m) r) := by
  induction is generalizing r
  case nil => exact s
  case cons i is hi =>
    rw [points_cons] at hd hn
    have ⟨hd₁, hd₂⟩ := List.nodup_cons.mp hd
    refine hi (s.addPoint <| hn _ <| .head _) hd₂ fun h hh hm => ?_
    simp only [HashRing.addPoint, AList.mem_insert] at hm
    cases hm
    case inl e  => exact hd₁ <| e ▸ hh
    case inr hm => exact hn h (.tail _ hh) hm

theorem lookup_foldl_addPoint (r : HashRing) :
    (is.foldl (addPoint hash m) r).ring.lookup h =
      if h ∈ points hash m is then some m else r.ring.lookup h := by
  induction is generalizing r
  case nil => simp [points]
  case cons i is hi =>
    rw [List.foldl_cons, hi, points_cons]
    by_cases hh : h ∈ points hash m is
    case pos => simp [hh]
    case neg =>
      by_cases he : h = hash (label m i)
      case pos => simp [addPoint, ← he]
      case neg => simp [addPoint, hh, he, AList.lookup_insert_ne he]

theorem virtualNodes_foldl_addPoint (r : HashRing) :
    (is.foldl (addPoint hash m) r).virtualNodes = r.virtualNodes := by
  induction is generalizing r
  case nil         => rfl
  case cons i _ hi => exact hi _

theorem virtualNodes_addNode (r : HashRing) (m : NodeId) :
    (r.addNode hash m).virtualNodes = r.virtualNodes := by
  unfold addNode
  split
  case isTrue  => rfl
  case isFalse => exact virtualNodes_foldl_addPoint _

end AddPoints

section RemovePoints

-- The points at which a node was on the ring are gone, and nothing else has changed.
structure Without (r r' : HashRing) (hashes : List Nat) : Prop where
  inStep       : InStep r'
  nodes        : r'.nodes = r.nodes
  virtualNodes : r'.virtualNodes = r.virtualNodes
  lookup       : ∀ {h}, r'.ring.lookup h = if h ∈ hashes then none else r.ring.lookup h

theorem InStep.removePoint (s : InStep r) (hm : hash (label m i) ∈ r.ring) :
    ∃ r', r.removePoint hash m i = some r' ∧ Without r r' [hash (label m i)] := by
  have ⟨hl, he⟩ := Circle.eraseIdx_takeWhile s.sorted <| s.mem_iff.mpr hm
  let r' : HashRing := { r with
    ring         := r.ring.erase (hash (label m i))
    sortedHashes := r.sortedHashes.erase (hash (label m i)) }
  have s' : InStep r' := {
    sorted  := s.sorted.pairwise.sublist List.erase_sublist |>.sortedLT
    mem_iff := by simp [r', s.sorted.nodup.mem_erase_iff, s.mem_iff, AList.mem_erase]
  }
  refine ⟨r', by simp [HashRing.removePoint, bisectLeft, hm, hl, he, r'], s', rfl, rfl, ?_⟩
  intro h
  by_cases hh : h = hash (label m i)
  case pos => subst hh; simp [r']
  case neg => simp [r', hh, AList.lookup_erase_ne hh]

theorem InStep.foldlM_removePoint (s : InStep r) (hd : (points hash m is).Nodup)
    (hm : ∀ h ∈ points hash m is, h ∈ r.ring) :
    ∃ r', is.foldlM (HashRing.removePoint hash m) r = some r' ∧
      Without r r' (points hash m is) := by
  induction is generalizing r
  case nil => exact ⟨r, rfl, s, rfl, rfl, by simp [points]⟩
  case cons i is hi =>
    rw [points_cons] at hd hm
    have ⟨hd₁, hd₂⟩ := List.nodup_cons.mp hd
    have ⟨r₁, e₁, w₁⟩ := s.removePoint <| hm _ <| .head _
    have hm' : ∀ h ∈ points hash m is, h ∈ r₁.ring := by
      intro h hh
      have hne : h ≠ hash (label m i) := fun e => hd₁ <| e ▸ hh
      have hr := hm h <| .tail _ hh
      rw [← AList.lookup_isSome] at hr ⊢
      simpa [w₁.lookup, hne] using hr
    have ⟨r', e, w⟩ := hi w₁.inStep hd₂ hm'
    refine ⟨r', by simp [e₁, e], w.inStep, w.nodes.trans w₁.nodes,
      w.virtualNodes.trans w₁.virtualNodes, fun {h} => ?_⟩
    rw [w.lookup, w₁.lookup, points_cons]
    by_cases hh : h ∈ points hash m is
    case pos => simp [hh]
    case neg => simp [hh]

end RemovePoints

-- The two structures say where the members are, and nothing else.
structure Canonical (hash : String → Nat) (r : HashRing) : Prop where
  inStep : InStep r
  lookup : ∀ {h m}, r.ring.lookup h = some m ↔
    m ∈ r.nodes ∧ ∃ i < r.virtualNodes, h = hash (label m i)

namespace Canonical

theorem mem_sortedHashes (c : Canonical hash r) :
    h ∈ r.sortedHashes ↔ ∃ m ∈ r.nodes, ∃ i < r.virtualNodes, h = hash (label m i) := by
  rw [c.inStep.mem_iff, ← AList.lookup_isSome, Option.isSome_iff_exists]
  simp only [c.lookup]

theorem empty (hash : String → Nat) (virtualNodes : Nat) : Canonical hash (empty virtualNodes) where
  inStep := ⟨List.Pairwise.nil.sortedLT, by simp [HashRing.empty]⟩
  lookup := by simp [HashRing.empty]

theorem addNode (c : Canonical hash r)
    (hd : Set.InjOn hash (labels r.virtualNodes (insert m r.nodes))) :
    Canonical hash (r.addNode hash m) := by
  unfold HashRing.addNode
  split
  case isTrue => exact c
  case isFalse hm =>
    have hself : m ∈ (insert m r.nodes : Set NodeId) := Set.mem_insert ..
    have hnew : ∀ h ∈ points hash m (.range r.virtualNodes), h ∉ r.ring := by
      intro h hh hr
      have ⟨i, hi, hi'⟩ := mem_points.mp hh
      have ⟨n, hn⟩ := Option.isSome_iff_exists.mp <| AList.lookup_isSome.mpr hr
      have ⟨hn, j, hj, hj'⟩ := c.lookup.mp hn
      have ⟨e, _⟩ := hash_label_inj hd hself hi (Set.mem_insert_of_mem _ hn) hj (hi'.symm.trans hj')
      exact hm <| e ▸ hn
    refine ⟨.foldl_addPoint ⟨c.inStep.sorted, c.inStep.mem_iff⟩ (nodup_points hd hself) hnew, ?_⟩
    intro h n
    rw [lookup_foldl_addPoint, nodes_foldl_addPoint, virtualNodes_foldl_addPoint]
    split
    case isTrue hh =>
      have ⟨i, hi, hi'⟩ := mem_points.mp hh
      constructor
      case mp =>
        intro e
        cases Option.some.inj e
        exact ⟨Finset.mem_insert_self .., i, hi, hi'⟩
      case mpr =>
        intro ⟨hn, j, hj, hj'⟩
        have hn' : n ∈ (insert m r.nodes : Set NodeId) := by simpa using hn
        rw [(hash_label_inj hd hself hi hn' hj <| hi'.symm.trans hj').left]
    case isFalse hh =>
      rw [c.lookup, Finset.mem_insert]
      constructor
      case mp  => exact fun ⟨hn, hi⟩ => ⟨.inr hn, hi⟩
      case mpr =>
        intro ⟨hn, i, hi, hi'⟩
        refine ⟨hn.resolve_left fun e => hh ?_, i, hi, hi'⟩
        exact mem_points.mpr ⟨i, hi, e ▸ hi'⟩

theorem removeNode (c : Canonical hash r) (hd : Set.InjOn hash (labels r.virtualNodes r.nodes))
    (m : NodeId) : ∃ r', r.removeNode hash m = some r' ∧ Canonical hash r' ∧
      r'.nodes = r.nodes.erase m ∧ r'.virtualNodes = r.virtualNodes := by
  unfold HashRing.removeNode
  by_cases hm : m ∈ r.nodes
  case neg => exact ⟨r, if_pos hm, c, (Finset.erase_eq_of_notMem hm).symm, rfl⟩
  case pos =>
    rw [if_neg (not_not.mpr hm)]
    have hold : ∀ h ∈ points hash m (.range r.virtualNodes), h ∈ r.ring := by
      intro h hh
      have hl := c.lookup.mpr ⟨hm, mem_points.mp hh⟩
      exact AList.lookup_isSome.mp <| hl ▸ rfl
    have s : InStep { r with nodes := r.nodes.erase m } := ⟨c.inStep.sorted, c.inStep.mem_iff⟩
    have ⟨r', e, w⟩ := s.foldlM_removePoint (nodup_points hd hm) hold
    refine ⟨r', e, ⟨w.inStep, fun {h n} => ?_⟩, w.nodes, w.virtualNodes⟩
    rw [w.lookup, w.nodes, w.virtualNodes, Finset.mem_erase]
    split
    case isTrue hh =>
      have ⟨i, hi, hi'⟩ := mem_points.mp hh
      constructor
      case mp  => nofun
      case mpr =>
        intro ⟨⟨hne, hn⟩, j, hj, hj'⟩
        exact absurd (hash_label_inj hd hn hj hm hi <| hj'.symm.trans hi').left hne
    case isFalse hh =>
      rw [c.lookup]
      constructor
      case mpr => exact fun ⟨hn, hi⟩ => ⟨hn.right, hi⟩
      case mp  =>
        intro ⟨hn, i, hi, hi'⟩
        refine ⟨⟨fun e => hh ?_, hn⟩, i, hi, hi'⟩
        exact mem_points.mpr ⟨i, hi, e ▸ hi'⟩

theorem call (c : Canonical hash r) {s : Set NodeId} (hd : Set.InjOn hash (labels r.virtualNodes s))
    (hs : ↑r.nodes ⊆ s) (l : RingCall) (hl : l.nodeId ∈ s) :
    ∃ r', r.call hash l = some r' ∧ Canonical hash r' ∧ r'.nodes = l.apply r.nodes ∧
      r'.virtualNodes = r.virtualNodes := by
  cases l
  case add m =>
    have hi : insert m ↑r.nodes ⊆ s := Set.insert_subset hl hs
    exact ⟨_, rfl, c.addNode <| hd.mono <| labels_mono hi, nodes_addNode ..,
      virtualNodes_addNode ..⟩
  case remove m => exact c.removeNode (hd.mono <| labels_mono hs) m

theorem foldlM_call (c : Canonical hash r) {s : Set NodeId}
    (hd : Set.InjOn hash (labels r.virtualNodes s)) (hs : ↑r.nodes ⊆ s) (calls : List RingCall)
    (hl : ∀ l ∈ calls, l.nodeId ∈ s) :
    ∃ r', calls.foldlM (HashRing.call hash) r = some r' ∧ Canonical hash r' ∧
      r'.nodes = calls.foldl RingCall.apply r.nodes ∧ r'.virtualNodes = r.virtualNodes := by
  induction calls generalizing r
  case nil => exact ⟨r, rfl, c, rfl, rfl⟩
  case cons l calls hi =>
    have ⟨r₁, e₁, c₁, hn₁, hv₁⟩ := c.call hd hs l (hl l <| .head _)
    have hs₁ : ↑r₁.nodes ⊆ s := hn₁ ▸ l.apply_subset hs (hl l <| .head _)
    have ⟨r', e, c', hn, hv⟩ := hi c₁ (hv₁ ▸ hd) hs₁ fun l hm => hl l <| .tail _ hm
    exact ⟨r', by simp [e₁, e], c', by simp [hn, hn₁], hv.trans hv₁⟩

end Canonical

section History

variable {v : Nat} {nodes : List NodeId} {calls : List RingCall}

-- Constructing a ring from a list of nodes is a sequence of calls.
theorem history_eq : history hash v nodes calls =
    (nodes.map RingCall.add ++ calls).foldlM (call hash) (empty v) := by
  have h : ∀ r, (nodes.map RingCall.add).foldlM (call hash) r =
      some (nodes.foldl (addNode hash) r) := by
    induction nodes
    case nil         => exact fun _ => rfl
    case cons _ _ hi => exact fun r => hi _
  rw [List.foldlM_append, h]
  rfl

theorem members_eq :
    members nodes calls = (nodes.map RingCall.add ++ calls).foldl RingCall.apply ∅ := by
  have h : ∀ s, (nodes.map RingCall.add).foldl RingCall.apply s = s ∪ nodes.toFinset := by
    induction nodes
    case nil         => simp
    case cons m _ hi => simp [hi, RingCall.apply, Finset.insert_union, Finset.union_insert]
  rw [List.foldl_append, h, Finset.empty_union, members]

theorem members_subset : ↑(members nodes calls) ⊆ involved nodes calls := by
  have h : ∀ ls : List RingCall, ∀ s : Finset NodeId, ↑s ⊆ involved nodes calls →
      (∀ l ∈ ls, l.nodeId ∈ involved nodes calls) →
      ↑(ls.foldl RingCall.apply s) ⊆ involved nodes calls := by
    intro ls
    induction ls
    case nil           => exact fun _ hs _ => hs
    case cons l ls hi  =>
      intro s hs hl
      exact hi _ (l.apply_subset hs <| hl l <| .head _) fun l hm => hl l <| .tail _ hm
  refine h calls _ (fun m hm => .inl ?_) fun l hl => .inr ⟨l, hl, rfl⟩
  simpa using hm

theorem canonical_history (hd : Set.InjOn hash (labels v (involved nodes calls))) :
    ∃ r, history hash v nodes calls = some r ∧ Canonical hash r ∧ r.nodes = members nodes calls ∧
      r.virtualNodes = v := by
  rw [history_eq, members_eq]
  refine Canonical.foldlM_call (.empty hash v) hd (by simp [empty]) _ fun l hl => ?_
  cases List.mem_append.mp hl
  case inl hl =>
    obtain ⟨m, hm, e⟩ := List.mem_map.mp hl
    exact .inl (e ▸ hm)
  case inr hl => exact .inr ⟨l, hl, rfl⟩

end History

section Agreement

-- The rings look the same to lookups.
structure Agrees (r r' : HashRing) : Prop where
  nodes        : r.nodes = r'.nodes
  sortedHashes : r.sortedHashes = r'.sortedHashes
  lookup       : ∀ h, r.ring.lookup h = r'.ring.lookup h

theorem Canonical.agrees (c : Canonical hash r) (c' : Canonical hash r') (hn : r.nodes = r'.nodes)
    (hv : r.virtualNodes = r'.virtualNodes) : Agrees r r' where
  nodes := hn
  sortedHashes := by
    refine c.inStep.sorted.eq_of_mem_iff c'.inStep.sorted fun h => ?_
    rw [c.mem_sortedHashes, c'.mem_sortedHashes, hn, hv]
  lookup h := by
    refine Option.ext fun m => ?_
    rw [c.lookup, c'.lookup, hn, hv]

variable (a : Agrees r r')
include a

theorem Agrees.sortedPoints : r.sortedPoints = r'.sortedPoints := by
  simp only [HashRing.sortedPoints, a.sortedHashes, a.lookup]

theorem Agrees.getNode (key : String) : r.getNode hash key = r'.getNode hash key := by
  have hl : r.ring.lookup = r'.ring.lookup := funext a.lookup
  simp only [HashRing.getNode, firstPoint, a.sortedHashes, hl]

theorem Agrees.walk (start target : Nat) (result : List NodeId) (is : List Nat) :
    r.walk start target result is = r'.walk start target result is := by
  induction is generalizing result
  case nil => rfl
  case cons i is hi => simp only [HashRing.walk, a.sortedHashes, a.lookup, hi]

theorem Agrees.getPreferenceList (key : String) (n : Nat) :
    r.getPreferenceList hash key n = r'.getPreferenceList hash key n := by
  simp only [HashRing.getPreferenceList, firstPoint, a.sortedHashes, a.nodes, a.walk]

end Agreement

theorem ring_canonical (v : Nat) :
    (∀ nodes calls, Set.InjOn hash (labels v (involved nodes calls)) →
      ∃ r, history hash v nodes calls = some r ∧ r.nodes = members nodes calls ∧
        r.sortedHashes.SortedLT ∧
        (∀ h, h ∈ r.sortedHashes ↔ ∃ m ∈ members nodes calls, ∃ i < v, h = hash (label m i)) ∧
        ∀ h m, r.ring.lookup h = some m ↔
          m ∈ members nodes calls ∧ ∃ i < v, h = hash (label m i)) ∧
    ∀ nodes calls nodes' calls' r r', Set.InjOn hash (labels v (involved nodes calls)) →
      Set.InjOn hash (labels v (involved nodes' calls')) →
      history hash v nodes calls = some r → history hash v nodes' calls' = some r' →
      members nodes calls = members nodes' calls' →
      r.sortedPoints = r'.sortedPoints ∧ ∀ key, r.getNode hash key = r'.getNode hash key ∧
        ∀ n, r.getPreferenceList hash key n = r'.getPreferenceList hash key n := by
  constructor
  case left =>
    intro nodes calls hd
    have ⟨r, e, c, hn, hv⟩ := canonical_history hd
    refine ⟨r, e, hn, c.inStep.sorted, ?_, ?_⟩ <;> rw [← hn, ← hv]
    · exact fun _ => c.mem_sortedHashes
    · exact fun _ _ => c.lookup
  case right =>
    intro nodes calls nodes' calls' r r' hd hd' h h' hm
    have ⟨r₁, e, c, hn, hv⟩ := canonical_history hd
    have ⟨r₁', e', c', hn', hv'⟩ := canonical_history hd'
    cases Option.some.inj <| h.symm.trans e
    cases Option.some.inj <| h'.symm.trans e'
    have a := c.agrees c' (by rw [hn, hn', hm]) (hv.trans hv'.symm)
    exact ⟨a.sortedPoints, fun key => ⟨a.getNode key, a.getPreferenceList key⟩⟩

-- Nodes with distinct first letters have distinct points, as an example.
def byFirstLetter (s : String) : Nat :=
  (s.toList.headD 'a').toNat

theorem injOn_byFirstLetter {s : Set NodeId} (h : ∀ m ∈ s, m ∈ ["a", "b", "c", "d"]) :
    Set.InjOn byFirstLetter (labels 1 s) := by
  intro l ⟨m, hm, i, hi, e⟩ l' ⟨n, hn, j, hj, e'⟩ he
  obtain rfl : i = 0 := by omega
  obtain rfl : j = 0 := by omega
  subst e e'
  have inj : ∀ m ∈ ["a", "b", "c", "d"], ∀ n ∈ ["a", "b", "c", "d"],
      byFirstLetter (label m 0) = byFirstLetter (label n 0) → label m 0 = label n 0 := by decide
  exact inj m (h m hm) n (h n hn) he

theorem ring_canonical_two : ∃ r r',
    history byFirstLetter 1 ["a"] [.add "b", .remove "a", .add "a"] = some r ∧
    history byFirstLetter 1 ["b", "a"] [.remove "c"] = some r' ∧
      r.sortedPoints = r'.sortedPoints := by
  obtain ⟨canonical, agree⟩ := @ring_canonical byFirstLetter 1
  have hd : Set.InjOn byFirstLetter
      (labels 1 (involved ["a"] [.add "b", .remove "a", .add "a"])) :=
    injOn_byFirstLetter (by simp [involved, RingCall.nodeId]; tauto)
  have hd' : Set.InjOn byFirstLetter (labels 1 (involved ["b", "a"] [.remove "c"])) :=
    injOn_byFirstLetter (by simp [involved, RingCall.nodeId]; tauto)
  obtain ⟨r, e, _⟩ := canonical _ _ hd
  obtain ⟨r', e', _⟩ := canonical _ _ hd'
  exact ⟨r, r', e, e', (agree _ _ _ _ _ _ hd hd' e e' <| by decide).left⟩

end HashRing
end DynamoKV

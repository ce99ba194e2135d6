import DynamoKV.Objects.Ring.Canonical

-- How preference lists change with the members of a ring.
namespace DynamoKV
namespace HashRing

variable {hash : String → Nat} {r r' : HashRing} {key : String} {n : Nat} {m x : NodeId}

-- All members in the order in which a walk from a key's position first meets them.
def owners (hash : String → Nat) (r : HashRing) (key : String) : List NodeId :=
  ((Circle.walkFrom r.sortedHashes (hash key)).filterMap r.ring.lookup).eraseDups

theorem nodup_owners (hash : String → Nat) (r : HashRing) (key : String) :
    (owners hash r key).Nodup :=
  Circle.nodup_eraseDups _

section Walk

theorem rotate_firstPoint (hs : r.sortedHashes.SortedLT) :
    r.sortedHashes.rotate (r.firstPoint hash key) =
      Circle.walkFrom r.sortedHashes (hash key) := by
  have hr : r.sortedHashes.rotate (bisectLeft r.sortedHashes (hash key)) = _ :=
    Circle.rotate_takeWhile hs
  simp only [firstPoint]
  split
  case isTrue he => rw [← hr, he, List.rotate_length, List.rotate_zero]
  case isFalse   => exact hr

theorem firstPoint_lt (hne : r.sortedHashes ≠ []) :
    r.firstPoint hash key < r.sortedHashes.length := by
  have hl : bisectLeft r.sortedHashes (hash key) ≤ r.sortedHashes.length :=
    (List.takeWhile_sublist _).length_le
  simp only [firstPoint]
  split
  case isTrue     => exact List.length_pos_iff.mpr hne
  case isFalse he => exact lt_of_le_of_ne hl he

-- The owner of the point which the loop looks at in its `i`th iteration.
def met (r : HashRing) (start i : Nat) : Option NodeId :=
  (r.sortedHashes[(start + i) % r.sortedHashes.length]?).bind r.ring.lookup

theorem walk_eq_collect {start target : Nat} {result : List NodeId} {is : List Nat}
    (h : ∀ i ∈ is, (r.met start i).isSome) :
    r.walk start target result is =
      some (Circle.collect target result <| is.filterMap <| r.met start) := by
  induction is generalizing result
  case nil => rfl
  case cons i is hi =>
    have ⟨m, hm⟩ := Option.isSome_iff_exists.mp <| h i <| .head _
    have ⟨p, hp, hl⟩ := Option.bind_eq_some_iff.mp hm
    have hi := fun result => @hi result fun j hj => h j <| .tail _ hj
    rw [List.filterMap_cons_some hm]
    simp only [walk, Circle.collect, hp, hl, hi, Option.bind_eq_bind, Option.bind_some]
    split_ifs <;> rfl

theorem filterMap_met (start : Nat) :
    (List.range r.sortedHashes.length).filterMap (r.met start) =
      (r.sortedHashes.rotate start).filterMap r.ring.lookup := by
  have h := congrArg (List.filterMap (Option.bind · r.ring.lookup)) <|
    Circle.map_range_getElem? r.sortedHashes start
  rw [List.filterMap_map, List.filterMap_map] at h
  exact h

-- If all points have owners, the loop collects the first owners from the start on.
theorem walk_range_eq_collect (h : ∀ p ∈ r.sortedHashes, (r.ring.lookup p).isSome)
    (start target : Nat) : r.walk start target [] (List.range r.sortedHashes.length) =
      some (Circle.collect target [] <|
        (r.sortedHashes.rotate start).filterMap r.ring.lookup) := by
  rw [walk_eq_collect, filterMap_met]
  intro i hi
  rw [met, List.getElem?_eq_getElem <| Nat.mod_lt _ <| Nat.zero_lt_of_lt <| List.mem_range.mp hi]
  exact h _ <| List.getElem_mem _

end Walk

namespace Canonical

variable (c : Canonical hash r)
include c

theorem isSome_lookup (h : p ∈ r.sortedHashes) : (r.ring.lookup p).isSome :=
  AList.lookup_isSome.mpr <| c.inStep.mem_iff.mp h

theorem sortedHashes_ne_nil (hv : 0 < r.virtualNodes) (hm : m ∈ r.nodes) :
    r.sortedHashes ≠ [] :=
  List.ne_nil_of_mem <| c.mem_sortedHashes.mpr ⟨m, hm, 0, hv, rfl⟩

theorem mem_owners (key : String) (hv : 0 < r.virtualNodes) :
    m ∈ owners hash r key ↔ m ∈ r.nodes := by
  simp only [owners, List.mem_eraseDups, List.mem_filterMap, Circle.mem_walkFrom]
  constructor
  case mp  => exact fun ⟨_, _, hl⟩ => (c.lookup.mp hl).left
  case mpr =>
    intro hm
    have hl := c.lookup.mpr ⟨hm, 0, hv, rfl⟩
    exact ⟨_, c.mem_sortedHashes.mpr ⟨m, hm, 0, hv, rfl⟩, hl⟩

theorem length_owners (key : String) (hv : 0 < r.virtualNodes) :
    (owners hash r key).length = r.nodes.card := by
  rw [← List.toFinset_card_of_nodup <| nodup_owners ..]
  congr 1
  ext m
  rw [List.mem_toFinset, c.mem_owners key hv]

theorem getPreferenceList_eq (hv : 0 < r.virtualNodes) (hm : m ∈ r.nodes) (hn : 0 < n) :
    r.getPreferenceList hash key n = some ((owners hash r key).take n) := by
  have ht : 0 < min n r.nodes.card := lt_min hn <| Finset.card_pos.mpr ⟨m, hm⟩
  rw [getPreferenceList, if_neg (c.sortedHashes_ne_nil hv hm),
    walk_range_eq_collect fun _ hp => c.isSome_lookup hp, rotate_firstPoint c.inStep.sorted,
    Circle.collect_nil ht, ← owners, ← c.length_owners key hv, ← List.take_eq_take_min]

theorem getNode_eq (hv : 0 < r.virtualNodes) (hm : m ∈ r.nodes) :
    r.getNode hash key = (owners hash r key).head? := by
  have hne := c.sortedHashes_ne_nil hv hm
  have hw : Circle.walkFrom r.sortedHashes (hash key) ≠ [] := mt Circle.walkFrom_eq_nil.mp hne
  rw [getNode, if_neg hne, ← List.head?_rotate (firstPoint_lt hne),
    rotate_firstPoint c.inStep.sorted, owners]
  obtain ⟨p, ps, he⟩ := List.exists_cons_of_ne_nil hw
  have hp : p ∈ r.sortedHashes := Circle.mem_walkFrom.mp <| he ▸ List.mem_cons_self
  obtain ⟨m, hm⟩ := Option.isSome_iff_exists.mp <| c.isSome_lookup hp
  simp [he, hm, List.eraseDups_cons]

theorem exists_owners (hv : 0 < r.virtualNodes) (hm : m ∈ r.nodes) (key : String) :
    ∃ o os, owners hash r key = o :: os ∧ r.getNode hash key = some o := by
  have ⟨o, os, he⟩ :=
    List.exists_cons_of_ne_nil <| List.ne_nil_of_mem <| (c.mem_owners key hv).mpr hm
  exact ⟨o, os, he, by rw [c.getNode_eq hv hm, he, List.head?_cons]⟩

end Canonical

-- A ring and the same ring with one more member.
structure Joins (hash : String → Nat) (x : NodeId) (r r' : HashRing) : Prop where
  before       : Canonical hash r
  after        : Canonical hash r'
  notMem       : x ∉ r.nodes
  nodes        : r'.nodes = insert x r.nodes
  virtualNodes : r'.virtualNodes = r.virtualNodes

namespace Joins

variable (j : Joins hash x r r')
include j

theorem lookup_iff : r.ring.lookup p = some m ↔ r'.ring.lookup p = some m ∧ m ≠ x := by
  rw [j.before.lookup, j.after.lookup, j.nodes, j.virtualNodes, Finset.mem_insert]
  constructor
  case mp  => exact fun ⟨hm, h⟩ => ⟨⟨.inr hm, h⟩, fun e => j.notMem <| e ▸ hm⟩
  case mpr => exact fun ⟨⟨hm, h⟩, hx⟩ => ⟨hm.resolve_left hx, h⟩

-- The points of the smaller ring are those of the larger one which the new member does not own.
theorem sortedHashes_eq :
    r.sortedHashes = r'.sortedHashes.filter fun p => r'.ring.lookup p ≠ some x := by
  refine j.before.inStep.sorted.eq_of_mem_iff ?_ fun p => ?_
  · exact (j.after.inStep.sorted.pairwise.filter _).sortedLT
  rw [List.mem_filter, j.before.inStep.mem_iff, j.after.inStep.mem_iff, ← AList.lookup_isSome,
    ← AList.lookup_isSome, Option.isSome_iff_exists, Option.isSome_iff_exists]
  simp only [j.lookup_iff, decide_eq_true_eq]
  constructor
  case mp  => exact fun ⟨m, hm, hx⟩ => ⟨⟨m, hm⟩, fun e => hx <| Option.some.inj <| hm ▸ e⟩
  case mpr => exact fun ⟨⟨m, hm⟩, hx⟩ => ⟨m, hm, fun e => hx <| e ▸ hm⟩

theorem owners_filter (key : String) :
    (owners hash r' key).filter (· ≠ x) = owners hash r key := by
  rw [owners, owners, ← Circle.eraseDups_filter, j.sortedHashes_eq, ← Circle.filter_walkFrom,
    List.filterMap_filter, List.filter_filterMap]
  congr 1
  refine List.filterMap_congr fun p _ => ?_
  refine Option.ext fun m => ?_
  rw [Option.filter_eq_some_iff, decide_eq_true_eq, ← j.lookup_iff]
  split
  case isTrue    => rfl
  case isFalse h =>
    simp only [decide_eq_true_eq, not_not] at h
    refine iff_of_false (fun hm => ?_) (by simp)
    have ⟨hm', hx⟩ := j.lookup_iff.mp hm
    exact hx <| Option.some.inj <| hm' ▸ h

variable (hv : 0 < r.virtualNodes)
include hv

-- The lists of the smaller ring are those of the larger one without the new member.
theorem preferenceList (hm : m ∈ r.nodes) (key : String) (hn : 0 < n) :
    ∃ l l' l'', r.getPreferenceList hash key n = some l ∧
      r'.getPreferenceList hash key n = some l' ∧
      r'.getPreferenceList hash key (n + 1) = some l'' ∧
      l = (l''.filter (· ≠ x)).take n ∧ (l' = l ∨ Circle.Inserted n x l l') ∧
      l'.filter (· ≠ x) <+: l := by
  have hv' : 0 < r'.virtualNodes := j.virtualNodes ▸ hv
  have hm' : m ∈ r'.nodes := j.nodes ▸ Finset.mem_insert_of_mem hm
  have hf := j.owners_filter key
  have hd := nodup_owners hash r' key
  refine ⟨_, _, _, j.before.getPreferenceList_eq hv hm hn, j.after.getPreferenceList_eq hv' hm' hn,
    j.after.getPreferenceList_eq hv' hm' n.succ_pos, ?_, ?_, ?_⟩
  · rw [← hf, Circle.take_filter_ne hd]
  · rw [← hf]
    exact Circle.take_eq_or_inserted hd x n
  · rw [← hf]
    exact Circle.filter_take_prefix _ _ _

theorem getNode (hm : m ∈ r.nodes) (key : String) :
    ∃ o o', r.getNode hash key = some o ∧ r'.getNode hash key = some o' ∧ (o' = o ∨ o' = x) := by
  have hv' : 0 < r'.virtualNodes := j.virtualNodes ▸ hv
  have hm' : m ∈ r'.nodes := j.nodes ▸ Finset.mem_insert_of_mem hm
  have hf := j.owners_filter key
  have ⟨o, os, he, ho⟩ := j.before.exists_owners hv hm key
  have ⟨o', os', he', ho'⟩ := j.after.exists_owners hv' hm' key
  refine ⟨o, o', ho, ho', ?_⟩
  by_cases hx : o' = x
  case pos => exact .inr hx
  case neg =>
    rw [he, he', List.filter_cons_of_pos (by simpa using hx)] at hf
    exact .inl (List.cons.inj hf).left

end Joins

theorem Canonical.joins (c : Canonical hash r) (hx : x ∉ r.nodes)
    (hd : Set.InjOn hash (labels r.virtualNodes (insert x r.nodes))) :
    Joins hash x r (r.addNode hash x) where
  before       := c
  after        := c.addNode hd
  notMem       := hx
  nodes        := nodes_addNode ..
  virtualNodes := virtualNodes_addNode ..

theorem Canonical.joins_of_removed (c : Canonical hash r) (c' : Canonical hash r')
    (hn : r'.nodes = r.nodes.erase x) (hv : r'.virtualNodes = r.virtualNodes) (hx : x ∈ r.nodes) :
    Joins hash x r' r where
  before       := c'
  after        := c
  notMem       := by simp [hn]
  nodes        := by rw [hn, Finset.insert_erase hx]
  virtualNodes := hv.symm

theorem Canonical.filter_take_owners (c : Canonical hash r) (hv : 0 < r.virtualNodes)
    (hx : x ∉ r.nodes) (key : String) (n : Nat) :
    ((owners hash r key).take n).filter (· ≠ x) = (owners hash r key).take n := by
  refine List.filter_eq_self.mpr fun o ho => ?_
  have ho := (c.mem_owners key hv).mp <| List.mem_of_mem_take ho
  simpa using ne_of_mem_of_not_mem ho hx

theorem minimal_disruption {v : Nat} {nodes : List NodeId} {calls : List RingCall} (hv : 0 < v)
    (hd : Set.InjOn hash (labels v (insert x (involved nodes calls))))
    (h : history hash v nodes calls = some r) :
    (r.nodes.Nonempty → x ∉ r.nodes → ∀ key,
      (∀ n > 0, ∃ l l' l'', r.getPreferenceList hash key n = some l ∧
        (r.addNode hash x).getPreferenceList hash key n = some l' ∧
        (r.addNode hash x).getPreferenceList hash key (n + 1) = some l'' ∧
        l = (l''.filter (· ≠ x)).take n ∧ (l' = l ∨ Circle.Inserted n x l l')) ∧
      ∃ o o', r.getNode hash key = some o ∧ (r.addNode hash x).getNode hash key = some o' ∧
        (o' = o ∨ o' = x)) ∧
    ∃ r', r.removeNode hash x = some r' ∧ (r'.nodes.Nonempty → ∀ key,
      (∀ n > 0, ∃ l l', r.getPreferenceList hash key n = some l ∧
        r'.getPreferenceList hash key n = some l' ∧ l.filter (· ≠ x) <+: l') ∧
      ∃ o o', r.getNode hash key = some o ∧ r'.getNode hash key = some o' ∧ (o = o' ∨ o = x)) := by
  have ⟨r₁, e, c, hn, hv'⟩ := canonical_history (hd.mono <| labels_mono <| Set.subset_insert ..)
  cases Option.some.inj <| h.symm.trans e
  subst hv'
  have hs : ↑r.nodes ⊆ involved nodes calls := hn ▸ members_subset
  constructor
  case left =>
    intro ⟨m, hm⟩ hx key
    have j := c.joins hx <| hd.mono <| labels_mono <| Set.insert_subset_insert hs
    refine ⟨fun n hp => ?_, j.getNode hv hm key⟩
    have ⟨l, l', l'', h, h', h'', hl, hi, _⟩ := j.preferenceList hv hm key hp
    exact ⟨l, l', l'', h, h', h'', hl, hi⟩
  case right =>
    have hd' := hd.mono <| labels_mono <| hs.trans <| Set.subset_insert ..
    have ⟨r', e', c', hn', hv'⟩ := c.removeNode hd' x
    refine ⟨r', e', fun ⟨m, hm⟩ key => ?_⟩
    by_cases hx : x ∈ r.nodes
    case pos =>
      have j := c.joins_of_removed c' hn' hv' hx
      have hv₁ : 0 < r'.virtualNodes := hv' ▸ hv
      have ⟨o', o, h', h, ho⟩ := j.getNode hv₁ hm key
      refine ⟨fun n hp => ?_, o, o', h, h', ho⟩
      have ⟨l', l, _, h', h, _, _, _, hl⟩ := j.preferenceList hv₁ hm key hp
      exact ⟨l, l', h, h', hl⟩
    case neg =>
      rw [removeNode, if_pos hx] at e'
      cases Option.some.inj e'
      have ⟨o, _, _, ho⟩ := c.exists_owners hv hm key
      refine ⟨fun n hp => ?_, o, o, ho, ho, .inl rfl⟩
      refine ⟨_, _, c.getPreferenceList_eq hv hm hp, c.getPreferenceList_eq hv hm hp, ?_⟩
      rw [c.filter_take_owners hv hx]

theorem minimal_disruption_two : ∃ l l' l'',
    (ofNodes byFirstLetter ["b", "c"] 1).getPreferenceList byFirstLetter "k" 2 = some l ∧
    ((ofNodes byFirstLetter ["b", "c"] 1).addNode byFirstLetter "a").getPreferenceList
      byFirstLetter "k" 2 = some l' ∧
    ((ofNodes byFirstLetter ["b", "c"] 1).addNode byFirstLetter "a").getPreferenceList
      byFirstLetter "k" 3 = some l'' ∧
    l = (l''.filter (· ≠ "a")).take 2 ∧ (l' = l ∨ Circle.Inserted 2 "a" l l') := by
  have hd : Set.InjOn byFirstLetter (labels 1 (insert "a" (involved ["b", "c"] []))) :=
    injOn_byFirstLetter (by simp [involved])
  obtain ⟨added, _⟩ := @minimal_disruption byFirstLetter _ "a" 1 ["b", "c"] [] Nat.one_pos hd rfl
  exact (added ⟨"b", by decide⟩ (by decide) "k").left 2 Nat.two_pos

end HashRing
end DynamoKV

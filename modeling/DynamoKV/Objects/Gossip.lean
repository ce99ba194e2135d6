import DynamoKV.Objects.VectorClock
import Mathlib.Algebra.Order.Field.Rat

namespace DynamoKV

abbrev Heartbeats :=
  AList (fun _ : NodeId => Int)

-- A node's heartbeat counters for all nodes it knows, and when it last saw them advance. Times are
-- those of its own clock.
structure GossipState where
  nodeId : NodeId
  table  : AList (fun _ : NodeId => Int × ℚ)
  own    : nodeId ∈ table

namespace GossipState

variable (g : GossipState)

def init (nodeId : NodeId) (now : ℚ) : GossipState where
  nodeId := nodeId
  table  := .singleton nodeId (0, now)
  own    := AList.mem_keys.mpr <| by simp

def ownCounter : Int :=
  ((g.table.lookup g.nodeId).get <| AList.lookup_isSome.mpr g.own).1

def tick (now : ℚ) : GossipState where
  nodeId := g.nodeId
  table  := g.table.insert g.nodeId (g.ownCounter + 1, now)
  own    := by simp

def toWire : Heartbeats where
  entries   := g.table.entries.map <| .map id fun _ => Prod.fst
  nodupKeys := g.table.nodupKeys.map₂ (fun _ => Prod.fst) _

-- A counter that was heard of, which may be anybody's but the node's own.
def hear (nodeId : NodeId) (counter : Int) (now : ℚ) : GossipState where
  nodeId := g.nodeId
  table  := g.table.insert nodeId (counter, now)
  own    := by simp [g.own]

-- One iteration of the loop of `merge_wire`.
def mergeEntry (now : ℚ) (g : GossipState) (e : Σ _ : NodeId, Int) : GossipState :=
  if e.1 = g.nodeId then g
  else match g.table.lookup e.1 with
    | none              => g.hear e.1 e.2 now
    | some (current, _) => if current < e.2 then g.hear e.1 e.2 now else g

def mergeWire (incoming : Heartbeats) (now : ℚ) : GossipState :=
  incoming.entries.foldl (mergeEntry now) g

def believedDown (nodeId : NodeId) (now timeout : ℚ) : Bool :=
  if nodeId = g.nodeId then false
  else match g.table.lookup nodeId with
    | none               => false
    | some (_, lastSeen) => now - lastSeen > timeout

-- `handle_gossip` returns the table to reply with.
def handleGossip (incoming : Heartbeats) (now : ℚ) : Heartbeats × GossipState :=
  let g := g.mergeWire incoming now
  (g.toWire, g)

variable {g : GossipState} {m x : NodeId} {incoming : Heartbeats} {now : ℚ}

theorem lookup_own (g : GossipState) : ∃ t, g.table.lookup g.nodeId = some (g.ownCounter, t) := by
  have ⟨e, he⟩ := Option.isSome_iff_exists.mp <| AList.lookup_isSome.mpr g.own
  exact ⟨e.2, by simp [ownCounter, he]⟩

theorem ownCounter_eq (h : g.table.lookup g.nodeId = some (c, t)) : g.ownCounter = c := by
  simp [ownCounter, h]

theorem lookup_toWire (x : NodeId) : g.toWire.lookup x = (g.table.lookup x).map Prod.fst :=
  List.dlookup_map₂ x

@[simp]
theorem lookup_init_of_ne (h : x ≠ m) : (init m now).table.lookup x = none := by
  refine AList.lookup_eq_none.mpr fun hm => h ?_
  simpa [init] using AList.mem_keys.mp hm

@[simp]
theorem ownCounter_init (m : NodeId) (now : ℚ) : (init m now).ownCounter = 0 :=
  ownCounter_eq (t := now) <| AList.mem_lookup_iff.mpr <| List.mem_singleton_self _

@[simp]
theorem nodeId_tick : (g.tick now).nodeId = g.nodeId :=
  rfl

@[simp]
theorem ownCounter_tick : (g.tick now).ownCounter = g.ownCounter + 1 :=
  ownCounter_eq (t := now) <| by simp [tick]

theorem lookup_tick_of_ne (h : x ≠ g.nodeId) : (g.tick now).table.lookup x = g.table.lookup x := by
  simp [tick, AList.lookup_insert_ne h]

-- What a node knows of another one after it was sent a counter for it, or none.
def heard (entry : Option (Int × ℚ)) (incoming : Option Int) (now : ℚ) : Option (Int × ℚ) :=
  match incoming, entry with
  | none, entry              => entry
  | some counter, none       => some (counter, now)
  | some counter, some entry => if entry.1 < counter then some (counter, now) else some entry

theorem heard_eq_none : heard o i now = none ↔ o = none ∧ i = none := by
  unfold heard
  split <;> simp
  split <;> simp

-- Either nothing larger was heard, or the counter heard is new.
theorem heard_eq_some (h : heard o i now = some e) :
    (o = some e ∧ ∀ c ∈ i, c ≤ e.1) ∨ (i = some e.1 ∧ e.2 = now ∧ ∀ e' ∈ o, e'.1 < e.1) := by
  unfold heard at h
  split at h
  case h_1 => exact .inl ⟨h, by simp⟩
  case h_2 =>
    cases Option.some.inj h
    exact .inr ⟨rfl, rfl, by simp⟩
  case h_3 =>
    split at h
    case isTrue hc =>
      cases Option.some.inj h
      exact .inr ⟨rfl, rfl, by simpa using hc⟩
    case isFalse hc =>
      cases Option.some.inj h
      exact .inl ⟨rfl, by simpa using hc⟩

-- An entry changes only for a larger counter.
def Advances (e e' : Int × ℚ) : Prop :=
  e' = e ∨ e.1 < e'.1

theorem Advances.trans (h : Advances e₁ e₂) (h' : Advances e₂ e₃) : Advances e₁ e₃ := by
  unfold Advances at *
  grind

theorem Advances.le (h : Advances e e') : e.1 ≤ e'.1 :=
  h.elim (fun h => h ▸ le_rfl) le_of_lt

theorem heard_advances (e : Int × ℚ) (i : Option Int) (now : ℚ) :
    ∃ e', heard (some e) i now = some e' ∧ Advances e e' := by
  unfold heard
  split
  case h_1 => exact ⟨e, rfl, .inl rfl⟩
  case h_2 => contradiction
  case h_3 heq =>
    cases Option.some.inj heq
    split
    case isTrue hc => exact ⟨_, rfl, .inr hc⟩
    case isFalse   => exact ⟨e, rfl, .inl rfl⟩

section Merge

theorem nodeId_mergeEntry (g : GossipState) (e : Σ _ : NodeId, Int) (now : ℚ) :
    (g.mergeEntry now e).nodeId = g.nodeId := by
  unfold mergeEntry
  split
  case isTrue  => rfl
  case isFalse => split <;> [rfl; (split <;> rfl)]

theorem lookup_mergeEntry_of_ne (g : GossipState) (h : e.1 ≠ x ∨ x = g.nodeId) :
    (g.mergeEntry now e).table.lookup x = g.table.lookup x := by
  unfold mergeEntry
  split
  case isTrue     => rfl
  case isFalse hg =>
    have hx : x ≠ e.1 := fun hx => h.elim (fun h => h hx.symm) fun h => hg <| hx.symm.trans h
    split
    case h_1 => exact AList.lookup_insert_ne hx
    case h_2 => split <;> [exact AList.lookup_insert_ne hx; rfl]

theorem lookup_mergeEntry_self (hx : x ≠ g.nodeId) :
    (g.mergeEntry now ⟨x, c⟩).table.lookup x = heard (g.table.lookup x) (some c) now := by
  simp only [mergeEntry, if_neg hx]
  cases h : g.table.lookup x
  case none   => simp [hear, heard]
  case some e =>
    simp only [heard]
    split <;> simp [hear, h]

theorem lookup_foldl_mergeEntry (es : List (Σ _ : NodeId, Int)) (hd : es.NodupKeys)
    (g : GossipState) (hx : x ≠ g.nodeId) :
    (es.foldl (mergeEntry now) g).table.lookup x =
      heard (g.table.lookup x) (es.dlookup x) now := by
  induction es generalizing g
  case nil => rfl
  case cons e es hi =>
    obtain ⟨m, c⟩ := e
    have ⟨hm, hd⟩ := List.nodupKeys_cons.mp hd
    rw [List.foldl_cons, hi hd _ (nodeId_mergeEntry g _ now ▸ hx)]
    by_cases he : m = x
    case pos =>
      subst he
      rw [List.dlookup_eq_none.mpr hm, lookup_mergeEntry_self hx, List.dlookup_cons_eq]
      rfl
    case neg =>
      rw [lookup_mergeEntry_of_ne g (.inl he), List.dlookup_cons_ne _ _ (Ne.symm he)]

@[simp]
theorem nodeId_mergeWire : (g.mergeWire incoming now).nodeId = g.nodeId := by
  unfold mergeWire
  induction incoming.entries generalizing g
  case nil         => rfl
  case cons e _ hi => exact hi.trans <| nodeId_mergeEntry g e now

theorem lookup_mergeWire_of_ne (incoming : Heartbeats) (now : ℚ) (hx : x ≠ g.nodeId) :
    (g.mergeWire incoming now).table.lookup x =
      heard (g.table.lookup x) (incoming.lookup x) now :=
  lookup_foldl_mergeEntry _ incoming.nodupKeys g hx

theorem lookup_mergeWire_self :
    (g.mergeWire incoming now).table.lookup g.nodeId = g.table.lookup g.nodeId := by
  unfold mergeWire
  induction incoming.entries generalizing g
  case nil         => rfl
  case cons e _ hi =>
    have hn := nodeId_mergeEntry g e now
    rw [List.foldl_cons, ← hn, hi, hn, lookup_mergeEntry_of_ne g (.inr rfl)]

@[simp]
theorem ownCounter_mergeWire : (g.mergeWire incoming now).ownCounter = g.ownCounter := by
  have ⟨t, h⟩ := g.lookup_own
  refine ownCounter_eq (t := t) ?_
  rw [nodeId_mergeWire, lookup_mergeWire_self, h]

end Merge

theorem believedDown_iff (hx : x ≠ g.nodeId) (h : g.table.lookup x = some (c, t)) :
    g.believedDown x now timeout ↔ t + timeout < now := by
  simp only [believedDown, if_neg hx, h, decide_eq_true_eq, gt_iff_lt]
  exact lt_sub_iff_add_lt'

end GossipState
end DynamoKV

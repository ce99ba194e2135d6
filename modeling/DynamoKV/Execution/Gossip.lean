import DynamoKV.Lib.Log
import DynamoKV.Lib.Transition
import DynamoKV.Objects.Gossip

-- Any number of nodes which tick and exchange their tables.
namespace DynamoKV.Gossip

-- A node with the time of its last step. Its ticks and the tables it has merged are recorded.
structure Member where
  gossip   : GossipState
  clock    : ℚ
  ticks    : Nat
  received : List (Heartbeats × ℚ)

inductive Message
  | request (sender dest : NodeId) (table : Heartbeats)
  | reply (dest : NodeId) (table : Heartbeats)

structure State where
  members : AList (fun _ : NodeId => Member)
  net     : List Message

-- Steps of a node carry the time on its own clock.
inductive Label
  | start (nodeId : NodeId) (now : ℚ)
  | tick (nodeId : NodeId) (now : ℚ)
  | send (sender dest : NodeId)
  | deliver (message : Nat) (now : ℚ) (again : Bool)
  | lose (message : Nat)

def Message.table : Message → Heartbeats
  | request _ _ table | reply _ table => table

namespace Member

def init (nodeId : NodeId) (now : ℚ) : Member :=
  ⟨.init nodeId now, now, 0, []⟩

def tick (n : Member) (now : ℚ) : Member :=
  { n with gossip := n.gossip.tick now, clock := now, ticks := n.ticks + 1 }

def merge (n : Member) (table : Heartbeats) (now : ℚ) : Member :=
  { n with
    gossip   := n.gossip.mergeWire table now
    clock    := now
    received := n.received ++ [(table, now)] }

-- The counters that the node has received for another one, and when.
def heardOf (n : Member) (x : NodeId) : List (Int × ℚ) :=
  n.received.filterMap fun (table, now) => (table.lookup x).map (·, now)

end Member

namespace State

variable (s : State)

def update (p : NodeId) (f : Member → Member) (now : ℚ) : Option State := do
  let n ← s.members.lookup p
  guard (n.clock ≤ now)
  return { s with members := s.members.insert p (f n) }

def send (sender dest : NodeId) : Option State := do
  let n ← s.members.lookup sender
  return { s with net := s.net ++ [.request sender dest n.gossip.toWire] }

-- The reply to a request is the table after the merge.
def receive (now : ℚ) : Message → Option State
  | .reply dest table          => s.update dest (·.merge table now) now
  | .request sender dest table => do
    let s' ← s.update dest (·.merge table now) now
    let n ← s'.members.lookup dest
    return { s' with net := s'.net ++ [.reply sender n.gossip.toWire] }

def deliver (m : Nat) (now : ℚ) (again : Bool) : Option State := do
  let message ← s.net[m]?
  let rest := if again then s.net else s.net.eraseIdx m
  { s with net := rest }.receive now message

def step : Label → Option State
  | .start p now           => do
    guard (p ∉ s.members)
    return { s with members := s.members.insert p (.init p now) }
  | .tick p now            => s.update p (·.tick now) now
  | .send sender dest      => s.send sender dest
  | .deliver m now again   => s.deliver m now again
  | .lose m                => some { s with net := s.net.eraseIdx m }

end State

def system : TransitionSystem State Label where
  init s := s = ⟨∅, []⟩
  step   := State.step

-- What a step does to the member with a given name.
inductive MemberStep (s : State) (p : NodeId) : Label → Option Member → Member → Prop
  | start : MemberStep s p (.start p now) none (.init p now)
  | tick : n.clock ≤ now → MemberStep s p (.tick p now) (some n) (n.tick now)
  | merge : n.clock ≤ now → message ∈ s.net →
    MemberStep s p (.deliver m now again) (some n) (n.merge message.table now)

structure Effect (s : State) (l : Label) (s' : State) : Prop where
  member : ∀ p, s'.members.lookup p = s.members.lookup p ∨
    ∃ n, s'.members.lookup p = some n ∧ MemberStep s p l (s.members.lookup p) n
  net    : ∀ message ∈ s'.net, message ∈ s.net ∨
    ∃ p n, s'.members.lookup p = some n ∧ message.table = n.gossip.toWire

section Steps

variable {s s' : State} {l : Label}

theorem lookup_update (h : s.update q f now = some s') :
    ∃ n, s.members.lookup q = some n ∧ n.clock ≤ now ∧
      s' = { s with members := s.members.insert q (f n) } := by
  have ⟨n, hn, h⟩ := Option.bind_eq_some_iff.mp h
  have ⟨_, hg, h⟩ := Option.bind_eq_some_iff.mp h
  exact ⟨n, hn, (Option.guard_eq_some' ..).mp hg, (Option.some.inj h).symm⟩

-- One member is inserted, and its table may be sent.
theorem Effect.insert (ho : s.members.lookup q = o) (hm : MemberStep s q l o n)
    (hs : s'.members = s.members.insert q n)
    (hn : ∀ message ∈ s'.net, message ∈ s.net ∨ message.table = n.gossip.toWire) :
    Effect s l s' where
  member p := by
    rw [hs]
    by_cases hp : p = q
    case pos =>
      subst hp ho
      exact .inr ⟨n, AList.lookup_insert _, hm⟩
    case neg => exact .inl <| AList.lookup_insert_ne hp
  net message h := by
    cases hn message h
    case inl h => exact .inl h
    case inr h => exact .inr ⟨q, n, hs ▸ AList.lookup_insert _, h⟩

theorem Effect.of_members_eq (hs : s'.members = s.members)
    (hn : ∀ message ∈ s'.net, message ∈ s.net ∨
      ∃ p n, s.members.lookup p = some n ∧ message.table = n.gossip.toWire) : Effect s l s' where
  member p := .inl <| by rw [hs]
  net message h := hs ▸ hn message h

theorem effect_receive (h : { s with net := rest }.receive now message = some s')
    (hr : ∀ m ∈ rest, m ∈ s.net) (hm : message ∈ s.net) :
    Effect s (.deliver i now again) s' := by
  cases message
  case reply dest table =>
    have ⟨n, hn, hc, he⟩ := lookup_update h
    exact he ▸ .insert hn (.merge hc hm) rfl fun m hm => .inl <| hr m hm
  case request sender dest table =>
    have ⟨s₁, h₁, h⟩ := Option.bind_eq_some_iff.mp h
    have ⟨n, hn, hc, he⟩ := lookup_update h₁
    have ⟨n', hn', h⟩ := Option.bind_eq_some_iff.mp h
    subst he
    cases Option.some.inj h
    rw [AList.lookup_insert] at hn'
    cases Option.some.inj hn'
    refine .insert hn (.merge hc hm) rfl fun m hm => ?_
    cases List.mem_append.mp hm
    case inl hm => exact .inl <| hr m hm
    case inr hm =>
      cases List.mem_singleton.mp hm
      exact .inr rfl

theorem step_effect (h : s.step l = some s') : Effect s l s' := by
  cases l
  case start p now =>
    have ⟨_, hg, h⟩ := Option.bind_eq_some_iff.mp h
    cases Option.some.inj h
    have hp : s.members.lookup p = none :=
      AList.lookup_eq_none.mpr <| (Option.guard_eq_some' ..).mp hg
    exact .insert hp .start rfl fun _ hm => .inl hm
  case tick p now =>
    have ⟨n, hn, hc, he⟩ := lookup_update h
    exact he ▸ .insert hn (.tick hc) rfl fun _ hm => .inl hm
  case send sender dest =>
    have ⟨n, hn, h⟩ := Option.bind_eq_some_iff.mp h
    cases Option.some.inj h
    refine .of_members_eq rfl fun m hm => ?_
    cases List.mem_append.mp hm
    case inl hm => exact .inl hm
    case inr hm =>
      cases List.mem_singleton.mp hm
      exact .inr ⟨sender, n, hn, rfl⟩
  case deliver i now again =>
    have ⟨message, hm, h⟩ := Option.bind_eq_some_iff.mp h
    refine effect_receive h (fun m hm => ?_) <| List.mem_of_getElem? hm
    split at hm
    case isTrue  => exact hm
    case isFalse => exact List.mem_of_mem_eraseIdx hm
  case lose i =>
    cases Option.some.inj h
    exact .of_members_eq rfl fun m hm => .inl <| List.mem_of_mem_eraseIdx hm

end Steps

section Counters

variable {s s' : State} {l : Label} {p x : NodeId}

-- A counter which a node has reached.
def Reached (s : State) (x : NodeId) (counter : Int) : Prop :=
  ∃ n, s.members.lookup x = some n ∧ counter ≤ n.ticks

theorem MemberStep.ticks_le (h : MemberStep s p l (some n) n') : n.ticks ≤ n'.ticks := by
  cases h
  case tick  => exact n.ticks.le_succ
  case merge => rfl

theorem Effect.reached (e : Effect s l s') (h : Reached s x c) : Reached s' x c := by
  have ⟨n, hn, hc⟩ := h
  cases e.member x
  case inl he => exact ⟨n, he ▸ hn, hc⟩
  case inr he =>
    have ⟨n', hn', step⟩ := he
    have := (hn ▸ step).ticks_le
    exact ⟨n', hn', by omega⟩

-- A member's own counter is the number of its ticks, and what it stores for another one is the
-- first largest counter which it has received.
structure Member.Honest (p : NodeId) (n : Member) : Prop where
  nodeId  : n.gossip.nodeId = p
  own     : n.gossip.ownCounter = n.ticks
  unheard : ∀ {x}, x ≠ p → n.gossip.table.lookup x = none → n.heardOf x = []
  heard   : ∀ {x e}, x ≠ p → n.gossip.table.lookup x = some e → Log.IsFirstMax (n.heardOf x) e

theorem Member.heardOf_merge (n : Member) (table : Heartbeats) (now : ℚ) (x : NodeId) :
    (n.merge table now).heardOf x =
      n.heardOf x ++ ((table.lookup x).map fun c => (c, now)).toList := by
  simp only [heardOf, merge, List.filterMap_append, List.filterMap_cons, List.filterMap_nil]
  cases table.lookup x <;> rfl

theorem Member.Honest.init (p : NodeId) (now : ℚ) : (Member.init p now).Honest p where
  nodeId      := rfl
  own         := GossipState.ownCounter_init ..
  unheard _ _ := rfl
  heard hx h  := by simp [Member.init, GossipState.lookup_init_of_ne hx] at h

theorem Member.Honest.tick (h : Member.Honest p n) (now : ℚ) : (n.tick now).Honest p where
  nodeId        := h.nodeId
  own           := by simp [Member.tick, h.own]
  unheard hx hl := h.unheard hx <| by rwa [← GossipState.lookup_tick_of_ne (h.nodeId ▸ hx)]
  heard hx hl   := h.heard hx <| by rwa [← GossipState.lookup_tick_of_ne (h.nodeId ▸ hx)]

theorem Member.Honest.merge (h : Member.Honest p n) (table : Heartbeats) (now : ℚ) :
    (n.merge table now).Honest p where
  nodeId := by simp [Member.merge, h.nodeId]
  own    := by simp [Member.merge, h.own]
  unheard hx hl := by
    rw [Member.merge, GossipState.lookup_mergeWire_of_ne _ _ (h.nodeId ▸ hx)] at hl
    have ⟨ho, hi⟩ := GossipState.heard_eq_none.mp hl
    simp [heardOf_merge, hi, h.unheard hx ho]
  heard {x e} hx hl := by
    rw [Member.merge, GossipState.lookup_mergeWire_of_ne _ _ (h.nodeId ▸ hx)] at hl
    rw [heardOf_merge]
    cases GossipState.heard_eq_some hl
    case inl hl =>
      have hm := h.heard hx hl.left
      cases hi : table.lookup x
      case none   => simpa using hm
      case some c => exact hm.append_of_le <| hl.right c hi
    case inr hl =>
      have ⟨hi, ht, hlt⟩ := hl
      have he : (e.1, now) = e := ht ▸ rfl
      rw [hi, Option.map_some, Option.toList_some, he]
      cases ho : n.gossip.table.lookup x
      case none    => simpa [h.unheard hx ho] using Log.isFirstMax_singleton e
      case some e' => exact (h.heard hx ho).append_of_lt <| hlt e' ho

-- All counters which are stored or sent have been reached by their nodes.
structure Sound (s : State) : Prop where
  honest : ∀ {p n}, s.members.lookup p = some n → n.Honest p
  stored : ∀ {p n x e}, s.members.lookup p = some n → n.gossip.table.lookup x = some e →
    Reached s x e.1
  sent   : ∀ {message x c}, message ∈ s.net → message.table.lookup x = some c → Reached s x c

theorem MemberStep.honest (h : ∀ {n}, o = some n → n.Honest p) (step : MemberStep s p l o n') :
    n'.Honest p := by
  cases step
  case start  => exact .init ..
  case tick   => exact (h rfl).tick _
  case merge  => exact (h rfl).merge ..

-- What a member stores for another one was stored before or sent to it.
theorem MemberStep.origin (h : ∀ {n}, o = some n → n.gossip.nodeId = p)
    (step : MemberStep s p l o n') (hx : x ≠ p) (he : n'.gossip.table.lookup x = some e) :
    (∃ n, o = some n ∧ n.gossip.table.lookup x = some e) ∨
      ∃ message ∈ s.net, message.table.lookup x = some e.1 := by
  cases step
  case start => simp [Member.init, GossipState.lookup_init_of_ne hx] at he
  case tick now n hc =>
    rw [Member.tick, GossipState.lookup_tick_of_ne (h rfl ▸ hx)] at he
    exact .inl ⟨n, rfl, he⟩
  case merge now message i again n hc hm =>
    rw [Member.merge, GossipState.lookup_mergeWire_of_ne _ _ (h rfl ▸ hx)] at he
    cases GossipState.heard_eq_some he
    case inl he => exact .inl ⟨n, rfl, he.left⟩
    case inr he => exact .inr ⟨message, hm, he.left⟩

theorem Sound.initial : Sound ⟨∅, []⟩ where
  honest h := by simp at h
  stored h := by simp at h
  sent h   := by simp at h

theorem Sound.step (h : Sound s) (e : Effect s l s') : Sound s' := by
  have honest : ∀ {p n}, s'.members.lookup p = some n → n.Honest p := by
    intro p n hn
    cases e.member p
    case inl he => exact h.honest <| he ▸ hn
    case inr he =>
      have ⟨n', hn', step⟩ := he
      cases Option.some.inj <| hn.symm.trans hn'
      exact step.honest h.honest
  have stored : ∀ {p n x e}, s'.members.lookup p = some n → n.gossip.table.lookup x = some e →
      Reached s' x e.1 := by
    intro p n x entry hn he
    by_cases hx : x = p
    case pos =>
      subst hx
      have hh := honest hn
      have ho := GossipState.ownCounter_eq <| hh.nodeId.symm ▸ he
      exact ⟨n, hn, by rw [← ho, hh.own]⟩
    case neg =>
      cases e.member p
      case inl h' => exact e.reached <| h.stored (h' ▸ hn) he
      case inr h' =>
        have ⟨n', hn', step⟩ := h'
        cases Option.some.inj <| hn.symm.trans hn'
        cases step.origin (fun hn => (h.honest hn).nodeId) hx he
        case inl ho =>
          have ⟨n, hn, he⟩ := ho
          exact e.reached <| h.stored hn he
        case inr ho =>
          have ⟨message, hm, hc⟩ := ho
          exact e.reached <| h.sent hm hc
  refine ⟨honest, stored, fun {message x c} hm hc => ?_⟩
  cases e.net message hm
  case inl hm => exact e.reached <| h.sent hm hc
  case inr hm =>
    have ⟨p, n, hn, ht⟩ := hm
    rw [ht, GossipState.lookup_toWire] at hc
    have ⟨entry, he, hc⟩ := Option.map_eq_some_iff.mp hc
    exact hc ▸ stored hn he

theorem Sound.of_reachable (r : system.Reachable P s) : Sound s :=
  r.invariant (fun _ hs => hs ▸ .initial) fun _ _ _ _ _ h hs => hs.step <| step_effect h

end Counters

section Run

variable {s s' : State} {p x : NodeId} {n m : Member} {e : Int × ℚ}

-- A member which stores an entry for another one still does so, for a counter which is no smaller.
def Stores (p x : NodeId) (e : Int × ℚ) (s : State) : Prop :=
  ∃ n, s.members.lookup p = some n ∧
    ∃ e', n.gossip.table.lookup x = some e' ∧ GossipState.Advances e e'

theorem Effect.stores (f : Effect s l s') (hs : Sound s) (hx : x ≠ p) (h : Stores p x e s) :
    Stores p x e s' := by
  have ⟨n, hn, e', he, ha⟩ := h
  cases f.member p
  case inl h => exact ⟨n, h ▸ hn, e', he, ha⟩
  case inr h =>
    have ⟨n', hn', step⟩ := h
    have hi := (hs.honest hn).nodeId
    rw [hn] at step
    refine ⟨n', hn', ?_⟩
    cases step
    case tick => exact ⟨e', by rwa [Member.tick, GossipState.lookup_tick_of_ne (hi ▸ hx)], ha⟩
    case merge now message _ _ _ _ =>
      have ⟨e₂, he₂, ha₂⟩ :=
        GossipState.heard_advances e' (message.table.lookup x) now
      refine ⟨e₂, ?_, ha.trans ha₂⟩
      rwa [Member.merge, GossipState.lookup_mergeWire_of_ne _ _ (hi ▸ hx), he]

theorem stores_of_run (r : system.Run P s s') (hs : Sound s) (hn : s.members.lookup p = some n)
    (hx : x ≠ p) (he : n.gossip.table.lookup x = some e) : Stores p x e s' := by
  have h := r.preserves (I := fun s => Sound s ∧ Stores p x e s)
    (fun _ _ _ _ h ⟨hs, hi⟩ => ⟨hs.step <| step_effect h, (step_effect h).stores hs hx hi⟩)
    ⟨hs, n, hn, e, he, .inl rfl⟩
  exact h.right

def NoTick (x : NodeId) (_ : State) (l : Label) : Prop :=
  ∀ now, l ≠ .tick x now

theorem ticks_of_run (r : system.Run (NoTick x) s s') (hm : s.members.lookup x = some m) :
    ∃ m', s'.members.lookup x = some m' ∧ m'.ticks = m.ticks := by
  refine r.preserves (I := fun s => ∃ m', s.members.lookup x = some m' ∧ m'.ticks = m.ticks)
    (fun s l s' hp h ⟨n, hn, ht⟩ => ?_) ⟨m, hm, rfl⟩
  cases (step_effect h).member x
  case inl he => exact ⟨n, he ▸ hn, ht⟩
  case inr he =>
    obtain ⟨n', hn', step⟩ := he
    rw [hn] at step
    refine ⟨n', hn', ?_⟩
    cases step
    case tick now _ => exact absurd rfl (hp now)
    case merge      => exact ht

-- No counter is stored which its node has not reached, so an entry for a node's last counter stays.
theorem lookup_of_run (r : system.Run (NoTick x) s s') (hs : Sound s)
    (hn : s.members.lookup p = some n) (hx : x ≠ p) (hm : s.members.lookup x = some m)
    (he : n.gossip.table.lookup x = some ((m.ticks : Int), t)) :
    ∃ n', s'.members.lookup p = some n' ∧ n'.gossip.table.lookup x = some ((m.ticks : Int), t) := by
  have hs' : Sound s' := r.preserves (fun _ _ _ _ h hs => hs.step <| step_effect h) hs
  have ⟨n', hn', e', he', ha⟩ := stores_of_run r hs hn hx he
  have ⟨m', hm', ht⟩ := ticks_of_run r hm
  have ⟨m₁, hm₁, hc⟩ := hs'.stored hn' he'
  cases Option.some.inj <| hm'.symm.trans hm₁
  refine ⟨n', hn', ?_⟩
  cases ha
  case inl ha => rw [he', ha]
  case inr ha =>
    have : (m.ticks : Int) < e'.1 := ha
    omega

end Run

theorem gossip_table_invariant (r : system.Reachable (fun _ _ => True) s)
    (hn : s.members.lookup p = some n) : n.gossip.ownCounter = n.ticks ∧ ∀ x ≠ p,
      (n.gossip.table.lookup x = none ↔ n.heardOf x = []) ∧
      (∀ e, n.gossip.table.lookup x = some e → Log.IsFirstMax (n.heardOf x) e ∧
        ∃ m, s.members.lookup x = some m ∧ e.1 ≤ m.gossip.ownCounter) ∧
      (∀ e s', n.gossip.table.lookup x = some e → system.Run (fun _ _ => True) s s' →
        ∃ n' e', s'.members.lookup p = some n' ∧ n'.gossip.table.lookup x = some e' ∧
          e.1 ≤ e'.1) ∧
      ∀ m t s', s.members.lookup x = some m →
        n.gossip.table.lookup x = some (m.gossip.ownCounter, t) → system.Run (NoTick x) s s' →
        ∃ n', s'.members.lookup p = some n' ∧
          n'.gossip.table.lookup x = some (m.gossip.ownCounter, t) ∧
          ∀ timeout now, t + timeout < now → n'.gossip.believedDown x now timeout := by
  have hs := Sound.of_reachable r
  have hh := hs.honest hn
  refine ⟨hh.own, fun x hx => ⟨⟨hh.unheard hx, fun h => ?_⟩, fun e he => ?_, fun e s' he r' => ?_,
    fun m t s' hm he r' => ?_⟩⟩
  case refine_1 =>
    cases he : n.gossip.table.lookup x
    case none   => rfl
    case some e =>
      have ⟨before, after, hl, _⟩ := (hh.heard hx he).split
      simp [h] at hl
  case refine_2 =>
    have ⟨m, hm, hc⟩ := hs.stored hn he
    exact ⟨hh.heard hx he, m, hm, (hs.honest hm).own ▸ hc⟩
  case refine_3 =>
    have ⟨n', hn', e', he', ha⟩ := stores_of_run r' hs hn hx he
    exact ⟨n', e', hn', he', ha.le⟩
  case refine_4 =>
    rw [(hs.honest hm).own] at he ⊢
    have ⟨n', hn', he'⟩ := lookup_of_run r' hs hn hx hm he
    have hs' : Sound s' := r'.preserves (fun _ _ _ _ h hs => hs.step <| step_effect h) hs
    have hx' : x ≠ n'.gossip.nodeId := (hs'.honest hn').nodeId ▸ hx
    exact ⟨n', hn', he', fun _ _ => (GossipState.believedDown_iff hx' he').mpr⟩

theorem gossip_table_invariant_two : ∃ (s : State) (n : Member),
    s.members.lookup "p" = some n ∧ n.gossip.table.lookup "x" = some (1, 5) ∧
    n.gossip.ownCounter = n.ticks ∧ Log.IsFirstMax (n.heardOf "x") (1, 5) := by
  let labels : List Label :=
    [.start "p" 0, .start "x" 0, .tick "x" 2, .send "x" "p", .deliver 0 5 true, .deliver 0 7 false]
  let s := system.after (fun _ _ => True) ⟨∅, []⟩ labels
  have ⟨n, hn, he⟩ : ∃ n, s.members.lookup "p" = some n ∧
      n.gossip.table.lookup "x" = some (1, 5) := ⟨_, rfl, by decide⟩
  have ⟨own, others⟩ := gossip_table_invariant (.after rfl labels) hn
  exact ⟨s, n, hn, he, own, ((others "x" (by decide)).right.left _ he).left⟩

section Restart

-- What a node does with its table after some point in time.
inductive Event
  | tick (now : ℚ)
  | merge (table : Heartbeats) (now : ℚ)

def Event.time : Event → ℚ
  | tick now | merge _ now => now

def Event.apply (g : GossipState) : Event → GossipState
  | tick now        => g.tick now
  | merge table now => g.mergeWire table now

-- A node which has ticked `ticks` times since it was restarted.
inductive Restarted (x : NodeId) : Nat → GossipState → Prop
  | init : Restarted x 0 (.init x now)
  | tick : Restarted x ticks g → Restarted x (ticks + 1) (g.tick now)
  | merge : Restarted x ticks g → Restarted x ticks (g.mergeWire table now)

-- The other node is not believed to be down from `start` until the timeout has elapsed, whatever
-- the node does meanwhile.
def SeenAlive (g : GossipState) (x : NodeId) (start timeout : ℚ) : Prop :=
  ∀ (events : List Event) now, (∀ e ∈ events, start ≤ e.time ∧ e.time ≤ now) → start ≤ now →
    now ≤ start + timeout → ¬(events.foldl Event.apply g).believedDown x now timeout

variable {g p : GossipState} {x : NodeId} {start timeout : ℚ}

theorem Restarted.own (h : Restarted x ticks g) : g.nodeId = x ∧ g.ownCounter = ticks := by
  induction h
  case init       => exact ⟨rfl, GossipState.ownCounter_init ..⟩
  case tick hi    => simp [hi]
  case merge hi   => simp [hi]

theorem Restarted.lookup_toWire (h : Restarted x ticks g) :
    g.toWire.lookup x = some (ticks : Int) := by
  have ⟨t, ht⟩ := g.lookup_own
  rw [h.own.left, h.own.right] at ht
  simp [GossipState.lookup_toWire, ht]

-- Events only refresh an entry.
theorem lookup_foldl_apply (events : List Event) (hs : ∀ e ∈ events, start ≤ e.time)
    (hx : x ≠ g.nodeId) (hl : g.table.lookup x = some (c, t)) (ht : start ≤ t) :
    x ≠ (events.foldl Event.apply g).nodeId ∧
      ∃ c t, (events.foldl Event.apply g).table.lookup x = some (c, t) ∧ start ≤ t := by
  induction events generalizing g c t
  case nil => exact ⟨hx, c, t, hl, ht⟩
  case cons e events hi =>
    have hs' := fun e he => hs e <| .tail _ he
    have he := hs e <| .head _
    cases e
    case tick now =>
      have hl' : (g.tick now).table.lookup x = some (c, t) := by
        rwa [GossipState.lookup_tick_of_ne hx]
      exact hi hs' hx hl' ht
    case merge table now =>
      have hl' := GossipState.lookup_mergeWire_of_ne table now hx
      have hx' : x ≠ (g.mergeWire table now).nodeId := GossipState.nodeId_mergeWire.symm ▸ hx
      rw [hl] at hl'
      cases hc : table.lookup x <;> rw [hc] at hl'
      case none   => exact hi hs' hx' hl' ht
      case some d =>
        simp only [GossipState.heard] at hl'
        split at hl'
        case isTrue  => exact hi hs' hx' hl' he
        case isFalse => exact hi hs' hx' hl' ht

theorem seenAlive_iff (hx : x ≠ g.nodeId) (hl : g.table.lookup x = some (c, t))
    (h0 : 0 ≤ timeout) : SeenAlive g x start timeout ↔ start ≤ t := by
  constructor
  case mp =>
    intro h
    have h := h [] (start + timeout) (by simp) (by linarith) le_rfl
    rw [List.foldl_nil, GossipState.believedDown_iff hx hl, not_lt] at h
    linarith
  case mpr =>
    intro ht events now he _ hn
    have ⟨hx', c', t', hl', ht'⟩ := lookup_foldl_apply events (fun e h => (he e h).left) hx hl ht
    rw [GossipState.believedDown_iff hx' hl', not_lt]
    linarith

theorem seenAlive_mergeWire_iff (hx : x ≠ p.nodeId) (hp : p.table.lookup x = some (c, t))
    (ht : t ≤ start) (h0 : 0 ≤ timeout) (hc : incoming.lookup x = some c') :
    SeenAlive (p.mergeWire incoming start) x start timeout ↔ c < c' ∨ t = start := by
  have hx' : x ≠ (p.mergeWire incoming start).nodeId := GossipState.nodeId_mergeWire.symm ▸ hx
  have hl := GossipState.lookup_mergeWire_of_ne incoming start hx
  rw [hp, hc] at hl
  simp only [GossipState.heard] at hl
  split at hl
  case isTrue h  => simp [seenAlive_iff hx' hl h0, h]
  case isFalse h =>
    rw [seenAlive_iff hx' hl h0, or_iff_right h]
    exact ⟨ht.antisymm, ge_of_eq⟩

end Restart

-- Either node may have started the exchange.
theorem restarted_seenAlive_iff {p g : GossipState} {timeout : ℚ} (hx : x ≠ p.nodeId)
    (hp : p.table.lookup x = some (c, t)) (ht : t ≤ start) (h0 : 0 ≤ timeout)
    (hg : Restarted x ticks g) :
    (SeenAlive (p.handleGossip g.toWire start).2 x start timeout ↔ c < ticks ∨ t = start) ∧
    ∀ posted now, SeenAlive (p.mergeWire (g.handleGossip posted now).1 start) x start timeout ↔
      c < ticks ∨ t = start := by
  constructor
  case left => exact seenAlive_mergeWire_iff hx hp ht h0 hg.lookup_toWire
  case right =>
    intro posted now
    have hg : Restarted x ticks (g.mergeWire posted now) := hg.merge
    exact seenAlive_mergeWire_iff hx hp ht h0 hg.lookup_toWire

theorem restarted_seenAlive_iff_one :
    SeenAlive ((GossipState.init "p" 0).hear "x" 0 5 |>.handleGossip
      ((GossipState.init "x" 19).tick 20).toWire 20).2 "x" 20 6 ↔
      (0 : Int) < (1 : Nat) ∨ (5 : ℚ) = 20 := by
  have hl : ((GossipState.init "p" 0).hear "x" 0 5).table.lookup "x" = some (0, 5) := by decide
  have hr : Restarted "x" 1 ((GossipState.init "x" 19).tick 20) := .tick .init
  exact (restarted_seenAlive_iff (by decide) hl (by norm_num) (by norm_num) hr).left

-- The last counter before the restart was 5, so that the first tick after it is not noticed.
theorem not_restarted_seenAlive : ¬∀ (p g : GossipState) (x : NodeId) c t start timeout ticks,
    x ≠ p.nodeId → p.table.lookup x = some (c, t) → t ≤ start → 0 ≤ timeout →
    Restarted x ticks g → 1 ≤ ticks →
    SeenAlive (p.handleGossip g.toWire start).2 x start timeout := by
  intro h
  have hl : ((GossipState.init "p" 0).hear "x" 5 0).table.lookup "x" = some (5, 0) := by decide
  have hr : Restarted "x" 1 ((GossipState.init "x" 19).tick 20) := .tick .init
  have h := h _ _ "x" 5 0 20 6 1 (by decide) hl (by norm_num) (by norm_num) hr le_rfl
  refine h [] 20 (by simp) le_rfl (by norm_num) ?_
  exact (GossipState.believedDown_iff (c := 5) (t := 0) (by decide) (by decide)).mpr (by norm_num)

end DynamoKV.Gossip

import DynamoKV.Execution.GossipHistory
import DynamoKV.Execution.State

-- One exchange of tables clears a node of the suspicion that it is down.
namespace DynamoKV.Gossip

def Message.dest : Message → NodeId
  | .request _ dest _ | .reply dest _ => dest

-- Nodes gossip with their peers only.
def Label.Among (cfg : Config) : Label → Prop
  | .send sender dest => dest ∈ cfg.clusterNodes ∧ dest ≠ sender
  | _                 => True

instance : DecidablePred (Label.Among cfg)
  | .send _ _ => inferInstanceAs (Decidable (_ ∧ _))
  | .start _ _ | .tick _ _ | .deliver _ _ _ | .lose _ => .isTrue trivial

-- The node which takes a step and reads its clock for that, and what it reads.
def State.reader (s : State) : Label → Option (NodeId × ℚ)
  | .start p now | .tick p now => some (p, now)
  | .deliver m now _           => s.net[m]?.map (·.dest, now)
  | .send _ _ | .lose _        => none

variable {s s' : State} {l : Label} {clocks : NodeId → ℚ}

theorem update_clock {f : Member → Member} (h : s.update q f now = some s')
    (hf : ∀ n, (f n).clock = now) (hn : s'.members.lookup p = some n) :
    s.members.lookup p = some n ∨ p = q ∧ n.clock = now := by
  obtain ⟨m, _, _, rfl⟩ := lookup_update h
  by_cases hp : p = q
  case pos =>
    subst hp
    rw [AList.lookup_insert] at hn
    exact .inr ⟨rfl, Option.some.inj hn ▸ hf m⟩
  case neg => exact .inl <| (AList.lookup_insert_ne hp).symm.trans hn

-- Only the node whose clock is read can change.
theorem step_clock (h : s.step l = some s') (hn : s'.members.lookup p = some n) :
    s.members.lookup p = some n ∨ s.reader l = some (p, n.clock) := by
  cases l
  case start q now =>
    obtain ⟨_, _, h⟩ := Option.bind_eq_some_iff.mp h
    cases Option.some.inj h
    by_cases hp : p = q
    case pos =>
      subst hp
      rw [AList.lookup_insert] at hn
      exact .inr <| Option.some.inj hn ▸ rfl
    case neg => exact .inl <| (AList.lookup_insert_ne hp).symm.trans hn
  case tick q now =>
    rcases update_clock h (fun _ => rfl) hn with hn | ⟨rfl, hc⟩
    · exact .inl hn
    · exact .inr <| hc ▸ rfl
  case send q r =>
    obtain ⟨_, _, h⟩ := Option.bind_eq_some_iff.mp h
    cases Option.some.inj h
    exact .inl hn
  case deliver i now again =>
    obtain ⟨message, hm, h⟩ := Option.bind_eq_some_iff.mp h
    have of_merge {net : List Message} {table s₁}
        (h : State.update { s with net } message.dest (·.merge table now) now = some s₁)
        (hn : s₁.members.lookup p = some n) :
        s.members.lookup p = some n ∨ s.reader (.deliver i now again) = some (p, n.clock) := by
      rcases update_clock h (fun _ => rfl) hn with hn | ⟨rfl, hc⟩
      · exact .inl hn
      · exact .inr <| by simp [State.reader, hm, hc]
    cases message
    case reply => exact of_merge h hn
    case request =>
      obtain ⟨_, h₁, h⟩ := Option.bind_eq_some_iff.mp h
      obtain ⟨_, _, h⟩ := Option.bind_eq_some_iff.mp h
      cases Option.some.inj h
      exact of_merge h₁ hn
  case lose =>
    cases Option.some.inj h
    exact .inl hn

-- No step of a node has been taken after the times on the clocks.
def Timely (clocks : NodeId → ℚ) (s : State) : Prop :=
  ∀ p n, s.members.lookup p = some n → n.clock ≤ clocks p

theorem Timely.step {clocks' : NodeId → ℚ} (ht : Timely clocks s) (h : s.step l = some s')
    (hle : ∀ p, clocks p ≤ clocks' p) (hr : ∀ p now, s.reader l = some (p, now) → clocks' p = now) :
    Timely clocks' s' := by
  intro p n hn
  rcases step_clock h hn with hn | hp
  · exact (ht p n hn).trans (hle p)
  · exact (hr p _ hp).ge

-- Steps which are taken at the times on the clocks, and lose nothing.
structure Prompt (cfg : Config) (clocks : NodeId → ℚ) (s : State) (l : Label) : Prop where
  among : l.Among cfg
  now   : ∀ p now, s.reader l = some (p, now) → now = clocks p
  keeps : ∀ m, l ≠ .lose m

variable {cfg : Config}

theorem Timely.run (ht : Timely clocks s) (r : system.Run (Prompt cfg clocks) s s') :
    Timely clocks s' :=
  r.preserves
    (fun _ _ _ hp h ht => ht.step h (fun _ => le_rfl) fun p now hr => (hp.now p now hr).symm)
    ht

theorem update_eq_some {f : Member → Member} (hn : s.members.lookup p = some n)
    (hc : n.clock ≤ now) :
    s.update p f now = some { s with members := s.members.insert p (f n) } := by
  simp [State.update, hn, guard, hc]

theorem prompt_start (cfg : Config) (clocks : NodeId → ℚ) (s : State) (p : NodeId) :
    Prompt cfg clocks s (.start p (clocks p)) :=
  ⟨trivial, fun _ _ h => by cases h; rfl, fun _ => nofun⟩

theorem prompt_tick (cfg : Config) (clocks : NodeId → ℚ) (s : State) (p : NodeId) :
    Prompt cfg clocks s (.tick p (clocks p)) :=
  ⟨trivial, fun _ _ h => by cases h; rfl, fun _ => nofun⟩

theorem prompt_send (hq : q ∈ cfg.clusterNodes) (hpq : q ≠ p) (clocks : NodeId → ℚ) (s : State) :
    Prompt cfg clocks s (.send p q) :=
  ⟨⟨hq, hpq⟩, fun _ _ => nofun, fun _ => nofun⟩

-- A node which is not up can be started.
theorem exists_started (cfg : Config) (clocks : NodeId → ℚ) (s : State) (p : NodeId) :
    ∃ s', system.Run (Prompt cfg clocks) s s' ∧ p ∈ s'.members ∧
      ∀ q ∈ s.members, q ∈ s'.members := by
  by_cases hp : p ∈ s.members
  case pos => exact ⟨s, .refl, hp, fun _ => id⟩
  case neg =>
    have h : s.step (.start p (clocks p)) =
        some { s with members := s.members.insert p (.init p (clocks p)) } := by
      simp [State.step, guard, hp]
    exact ⟨_, .single (prompt_start ..) h, by simp, fun q hq => by simp [hq]⟩

section Exchange

theorem deliver_last (s : State) (net : List Message) (message : Message) (now : ℚ) :
    State.deliver { s with net := net ++ [message] } net.length now false =
      State.receive { s with net } now message := by
  simp [State.deliver, List.eraseIdx_append_of_length_le]

variable {n m : Member} {p q : NodeId}

-- What a node knows of itself is newer than what others know of it.
theorem Sound.heard_tick (hs : Sound s) (hn : s.members.lookup p = some n)
    (hm : s.members.lookup q = some m) (now : ℚ) :
    GossipState.heard (n.gossip.table.lookup q) (some <| (m.ticks : Int) + 1) now =
      some ((m.ticks : Int) + 1, now) := by
  cases he : n.gossip.table.lookup q
  case none   => rfl
  case some e =>
    obtain ⟨m', hm', hle⟩ := hs.stored hn he
    cases Option.some.inj <| hm.symm.trans hm'
    exact if_pos (by omega)

theorem lookup_toWire_own (h : m.Honest q) :
    m.gossip.toWire.lookup q = some (m.ticks : Int) := by
  obtain ⟨t, ht⟩ := m.gossip.lookup_own
  rw [h.nodeId, h.own] at ht
  simp [GossipState.lookup_toWire, ht]

theorem prompt_deliver (net : List Message) (message : Message) (s : State) :
    Prompt cfg clocks { s with net := net ++ [message] }
      (.deliver net.length (clocks message.dest) false) where
  among := trivial
  now p now h := by
    simp only [State.reader, List.getElem?_concat_length, Option.map_some, Option.some.injEq,
      Prod.mk.injEq] at h
    exact h.left ▸ h.right.symm
  keeps _ := nofun

-- A round of `p` after a heartbeat of `q`, with `q` as the peer.
theorem exists_exchange (hs : Sound s) (ht : Timely clocks s) (hn : s.members.lookup p = some n)
    (hm : s.members.lookup q = some m) (hpq : q ≠ p) (hq : q ∈ cfg.clusterNodes) :
    ∃ s' n', system.Run (Prompt cfg clocks) s s' ∧ s'.members.lookup p = some n' ∧
      n'.gossip.nodeId = p ∧
      n'.gossip.table.lookup q = some ((m.ticks : Int) + 1, clocks p) := by
  let m₁ := m.tick (clocks q)
  let m₂ := m₁.merge n.gossip.toWire (clocks q)
  let n' := n.merge m₂.gossip.toWire (clocks p)
  let s₁ : State := { s with members := s.members.insert q m₁ }
  let s₃ : State := { s with members := s₁.members.insert q m₂ }
  let s₄ : State := { s with members := s₃.members.insert p n' }
  let request := Message.request p q n.gossip.toWire
  let reply := Message.reply p m₂.gossip.toWire
  have hn₁ : s₁.members.lookup p = some n := (AList.lookup_insert_ne hpq.symm).trans hn
  have hn₃ : s₃.members.lookup p = some n := (AList.lookup_insert_ne hpq.symm).trans hn₁
  have hm₁ : s₁.members.lookup q = some m₁ := AList.lookup_insert _
  have h₁ : system.step s (.tick q (clocks q)) = some s₁ := update_eq_some hm (ht q m hm)
  have h₂ : system.step s₁ (.send p q) = some { s₁ with net := s.net ++ [request] } := by
    simp [system, State.step, State.send, hn₁, s₁, request]
  have h₃ : system.step { s₁ with net := s.net ++ [request] }
      (.deliver s.net.length (clocks request.dest) false) =
      some { s₃ with net := s.net ++ [reply] } := by
    have hu : s₁.update q (·.merge n.gossip.toWire (clocks q)) (clocks q) = some s₃ :=
      update_eq_some hm₁ le_rfl
    have hm₃ : s₃.members.lookup q = some m₂ := AList.lookup_insert _
    refine (deliver_last s₁ s.net request _).trans ?_
    simp only [State.receive, request, Message.dest, Option.bind_eq_bind]
    rw [show ({ s₁ with net := s.net } : State) = s₁ from rfl, hu, Option.bind_some, hm₃]
    rfl
  have h₄ : system.step { s₃ with net := s.net ++ [reply] }
      (.deliver s.net.length (clocks reply.dest) false) = some s₄ :=
    (deliver_last s₃ s.net reply _).trans <| update_eq_some hn₃ (ht p n hn)
  have r₁ : system.Run (Prompt cfg clocks) s s₁ := .single (prompt_tick ..) h₁
  have r₂ := r₁.tail (prompt_send hq hpq clocks s₁) h₂
  have r₃ := r₂.tail (prompt_deliver s.net request s₁) h₃
  have r₄ := r₃.tail (prompt_deliver s.net reply s₃) h₄
  have hp := hs.honest hn
  have hm₂ : m₂.Honest q := ((hs.honest hm).tick _).merge _ _
  refine ⟨s₄, n', r₄, AList.lookup_insert _, (hp.merge _ _).nodeId, ?_⟩
  have hl : m₂.gossip.toWire.lookup q = some ((m.ticks : Int) + 1) := lookup_toWire_own hm₂
  refine (GossipState.lookup_mergeWire_of_ne _ _ (hp.nodeId ▸ hpq)).trans ?_
  rw [hl]
  exact hs.heard_tick hn hm _

end Exchange
end DynamoKV.Gossip

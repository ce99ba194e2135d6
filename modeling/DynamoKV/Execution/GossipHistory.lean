import DynamoKV.Lib.History
import DynamoKV.Execution.Gossip

-- Heartbeat tables stand for the causal histories of their nodes.
namespace DynamoKV.Gossip

open GossipState

def Label.history : Label → History.Label NodeId ℚ
  | start p now         => .start p now
  | tick p now          => .tick p now
  | send sender dest    => .send sender dest
  | deliver m now again => .deliver m now again
  | lose m              => .lose m

-- A counter on the wire tells how many events of its node have happened.
structure Tells (table : Heartbeats) (events : Set (History.Event NodeId)) : Prop where
  mem_iff : ∀ x i, (x, i) ∈ events ↔ ∃ c ∈ table.lookup x, (i : Int) ≤ c
  nonneg  : ∀ {x c}, table.lookup x = some c → 0 ≤ c

inductive Message.Represents : Message → History.Message NodeId → Prop
  | request {heartbeats} : Tells heartbeats events →
    Represents (.request sender dest heartbeats) (.request sender dest events)
  | reply {heartbeats} : Tells heartbeats events →
    Represents (.reply dest heartbeats) (.reply dest events)

-- The counter of an entry tells how many events of the node have been learned of. Its time is when
-- the last one was.
structure Summarizes (entry : Option (Int × ℚ)) (learned : Nat → Option ℚ) : Prop where
  known  : ∀ i, (learned i).isSome ↔ ∃ e ∈ entry, (i : Int) ≤ e.1
  nonneg : ∀ e ∈ entry, 0 ≤ e.1
  latest : ∀ e ∈ entry, learned e.1.toNat = some e.2
  upTo   : ∀ e ∈ entry, ∀ i t, learned i = some t → t ≤ e.2

-- A node is believed to be down when none of its events has been learned of lately.
structure Member.Represents (p : NodeId) (n : Member) (m : History.Member NodeId ℚ) : Prop where
  clock : n.clock = m.clock
  ticks : n.ticks = m.ticks
  past  : ∀ e t, m.learned e = some t → t ≤ m.clock
  entry : ∀ x, Summarizes (n.gossip.table.lookup x) fun i => m.learned (x, i)
  down  : ∀ x timeout now, n.gossip.believedDown x now timeout ↔ x ≠ p ∧ m.Silent x timeout now

structure Represents (s : State) (h : History.State NodeId ℚ) : Prop where
  members : ∀ p, Option.Rel (Member.Represents p) (s.members.lookup p) (h.members p)
  net     : List.Forall₂ Message.Represents s.net h.net

namespace Summarizes

variable {entry : Option (Int × ℚ)} {learned learned' : Nat → Option ℚ} {now : ℚ}

theorem none : Summarizes none fun _ => Option.none := by
  constructor <;> simp

theorem learned_eq_none (h : Summarizes Option.none learned) : learned i = Option.none := by
  simpa using (h.known i).not.mpr (by simp)

theorem congr (h : Summarizes entry learned) (he : ∀ i, learned' i = learned i) :
    Summarizes entry learned' :=
  funext he ▸ h

-- A larger counter makes the events in between known.
theorem advance (hc : 0 ≤ c) (hl : ∀ i : Nat, (i : Int) ≤ c → ∃ t, learned i = some t ∧ t ≤ now)
    (hn : ∀ i : Nat, c < i → learned i = Option.none) (h : learned c.toNat = some now) :
    Summarizes (some (c, now)) learned where
  known i := by
    constructor <;> intro hi
    case mp =>
      refine ⟨_, rfl, le_of_not_gt fun hlt => ?_⟩
      simp [hn i hlt] at hi
    case mpr =>
      obtain ⟨e, he, hi⟩ := hi
      cases Option.some.inj he
      obtain ⟨t, ht, _⟩ := hl i hi
      simp [ht]
  nonneg := by simpa using hc
  latest := by simpa using h
  upTo e he i t ht := by
    cases Option.some.inj he
    by_cases hi : (i : Int) ≤ c
    case pos =>
      obtain ⟨_, ht', hle⟩ := hl i hi
      exact Option.some.inj (ht.symm.trans ht') ▸ hle
    case neg => simp [hn i (by omega)] at ht

-- Events up to the incoming counter are learned by the merge, unless they are known already.
theorem heard (h : Summarizes entry learned) (incoming : Option Int)
    (hc : ∀ c ∈ incoming, 0 ≤ c) (hp : ∀ i t, learned i = some t → t ≤ now)
    (hl : ∀ i t, learned' i = some t ↔ learned i = some t ∨
      learned i = Option.none ∧ (∃ c ∈ incoming, (i : Int) ≤ c) ∧ t = now) :
    Summarizes (GossipState.heard entry incoming now) learned' := by
  have kept (hi : ∀ c ∈ incoming, ∃ e ∈ entry, c ≤ e.1) : Summarizes entry learned' := by
    refine h.congr fun i => Option.ext fun t => (hl i t).trans ?_
    rw [or_iff_left]
    rintro ⟨hn, ⟨c, hc, hle⟩, _⟩
    obtain ⟨e, he, hce⟩ := hi c hc
    have := (h.known i).mpr ⟨e, he, hle.trans hce⟩
    simp [hn] at this
  have advanced {c} (hi : incoming = some c) (hlt : ∀ e ∈ entry, e.1 < c) :
      Summarizes (some (c, now)) learned' := by
    have hc := hc c hi
    refine advance hc (fun i hle => ?_) (fun i hlt' => ?_) ?_
    · cases ho : learned i
      case none   => exact ⟨now, (hl i now).mpr <| .inr ⟨ho, ⟨c, hi, hle⟩, rfl⟩, le_rfl⟩
      case some t => exact ⟨t, (hl i t).mpr <| .inl ho, hp i t ho⟩
    · refine Option.eq_none_iff_forall_ne_some.mpr fun t ht => ?_
      rcases (hl i t).mp ht with ht | ⟨_, ⟨d, hd, hle⟩, _⟩
      · obtain ⟨e, he, hle⟩ := (h.known i).mp (by simp [ht])
        have := hlt e he
        omega
      · cases hi.symm.trans hd
        omega
    · refine (hl _ _).mpr <| .inr ⟨?_, ⟨c, hi, by omega⟩, rfl⟩
      refine Option.eq_none_iff_forall_ne_some.mpr fun t ht => ?_
      obtain ⟨e, he, hle⟩ := (h.known c.toNat).mp (by simp [ht])
      have := hlt e he
      omega
  unfold GossipState.heard
  split
  case h_1 => exact kept nofun
  case h_2 => exact advanced rfl nofun
  case h_3 c e =>
    split
    case isTrue hlt  => exact advanced rfl fun e' he' => Option.some.inj he' ▸ hlt
    case isFalse hle => exact kept fun d hd => ⟨e, rfl, Option.some.inj hd ▸ not_lt.mp hle⟩

end Summarizes

namespace Member.Represents

variable {p : NodeId} {n : Member} {m : History.Member NodeId ℚ} {now : ℚ}

theorem down_iff (hp : n.gossip.nodeId = p)
    (entry : ∀ x, Summarizes (n.gossip.table.lookup x) fun i => m.learned (x, i))
    (x : NodeId) (timeout now : ℚ) :
    n.gossip.believedDown x now timeout ↔ x ≠ p ∧ m.Silent x timeout now := by
  by_cases hx : x = p
  case pos => simp [believedDown, hx, hp]
  case neg =>
    have hs := entry x
    simp only [hx, not_false_eq_true, true_and, ne_eq, History.Member.Silent]
    cases he : n.gossip.table.lookup x <;> rw [he] at hs
    case none => simp [believedDown, hp, hx, he, History.Member.Knows, hs.learned_eq_none]
    case some e =>
      have hl := hs.latest e rfl
      rw [believedDown_iff (hp ▸ hx) he]
      constructor
      case mp =>
        refine fun hlt => ⟨⟨_, History.Member.knows_of_learned hl⟩, fun i t ht => ?_⟩
        have := hs.upTo e rfl i t ht
        linarith
      case mpr => exact fun h => h.right _ _ hl

theorem init (p : NodeId) (now : ℚ) : Represents p (.init p now) (.init p now) := by
  have entry x : Summarizes ((Member.init p now).gossip.table.lookup x)
      fun i => (History.Member.init p now).learned (x, i) := by
    by_cases hx : x = p
    case neg =>
      rw [Member.init, lookup_init_of_ne hx]
      exact Summarizes.none.congr fun i => if_neg fun he => hx (Prod.ext_iff.mp he).left
    case pos =>
      subst hx
      have hl : (Member.init x now).gossip.table.lookup x = some (0, now) :=
        AList.mem_lookup_iff.mpr <| List.mem_singleton_self _
      rw [hl]
      refine .advance le_rfl (fun i hi => ⟨now, if_pos ?_, le_rfl⟩) (fun i hi => if_neg ?_)
        (if_pos rfl)
      · simp only [Prod.mk.injEq, true_and]
        omega
      · simp only [Prod.mk.injEq, true_and]
        omega
  refine ⟨rfl, rfl, fun e t ht => ?_, entry, down_iff rfl entry⟩
  simp only [History.Member.init, Option.ite_none_right_eq_some, Option.some.injEq] at ht
  exact ht.right.ge

variable (r : Represents p n m) (h : n.Honest p) (hc : n.clock ≤ now)
include r h hc

theorem tick : Represents p (n.tick now) (m.tick p now) := by
  have hle : m.clock ≤ now := r.clock ▸ hc
  have entry x : Summarizes ((n.tick now).gossip.table.lookup x)
      fun i => (m.tick p now).learned (x, i) := by
    by_cases hx : x = p
    case neg =>
      rw [Member.tick, lookup_tick_of_ne (h.nodeId ▸ hx)]
      refine (r.entry x).congr fun i => History.Member.learned_tick_of_ne fun he => hx ?_
      exact (Prod.ext_iff.mp he).left
    case pos =>
      subst hx
      obtain ⟨t, ht⟩ := n.gossip.lookup_own
      rw [h.nodeId, h.own] at ht
      have hs := r.entry x
      rw [ht] at hs
      have hl : (n.tick now).gossip.table.lookup x = some ((n.ticks : Int) + 1, now) := by
        simp only [Member.tick, GossipState.tick, h.nodeId, h.own]
        exact AList.lookup_insert _
      rw [hl]
      refine .advance (by omega) (fun i hi => ?_) (fun i hi => ?_) <| if_pos ?_
      · by_cases he : i = m.ticks + 1
        case pos => exact ⟨now, if_pos (by rw [he]), le_rfl⟩
        case neg =>
          rw [History.Member.learned_tick_of_ne (by simpa using he)]
          have hi : (m.learned (x, i)).isSome :=
            (hs.known i).mpr ⟨_, rfl, by have := r.ticks; omega⟩
          obtain ⟨t, ht⟩ := Option.isSome_iff_exists.mp hi
          exact ⟨t, ht, (r.past _ _ ht).trans hle⟩
      · have hm := r.ticks
        rw [History.Member.learned_tick_of_ne (by simp only [ne_eq, Prod.mk.injEq]; omega)]
        refine Option.not_isSome_iff_eq_none.mp fun hi => ?_
        obtain ⟨e, he, hi⟩ := (hs.known i).mp hi
        cases Option.some.inj he
        omega
      · rw [← r.ticks]
        rfl
  refine ⟨rfl, congrArg (· + 1) r.ticks, fun e t ht => ?_, entry, down_iff h.nodeId entry⟩
  by_cases he : e = (p, m.ticks + 1)
  case pos =>
    simp only [History.Member.tick, he, if_true] at ht
    exact (Option.some.inj ht).ge
  case neg => exact (r.past e t <| History.Member.learned_tick_of_ne he ▸ ht).trans hle

-- Nobody tells a node about its own events what it does not know.
theorem merge {heartbeats : Heartbeats} (ht : Tells heartbeats events)
    (ho : ∀ c ∈ heartbeats.lookup p, c ≤ n.ticks) :
    Represents p (n.merge heartbeats now) (m.merge events now) := by
  have hle : m.clock ≤ now := r.clock ▸ hc
  have entry x : Summarizes ((n.merge heartbeats now).gossip.table.lookup x)
      fun i => (m.merge events now).learned (x, i) := by
    by_cases hx : x = p
    case pos =>
      subst hx
      have hl : (n.merge heartbeats now).gossip.table.lookup x = n.gossip.table.lookup x := by
        rw [← h.nodeId]
        exact lookup_mergeWire_self
      rw [hl]
      refine (r.entry x).congr fun i => History.Member.learned_merge_of_knows fun he => ?_
      obtain ⟨c, hc, hi⟩ := (ht.mem_iff x i).mp he
      obtain ⟨t, ht⟩ := n.gossip.lookup_own
      rw [h.nodeId, h.own] at ht
      exact ((r.entry x).known i).mpr ⟨_, ht, hi.trans <| ho c hc⟩
    case neg =>
      rw [Member.merge, lookup_mergeWire_of_ne _ _ (h.nodeId ▸ hx)]
      refine (r.entry x).heard _ (fun c hc => ht.nonneg hc)
        (fun i t hl => (r.past _ _ hl).trans hle) fun i t => ?_
      rw [← ht.mem_iff]
      exact History.Member.learned_merge_eq_some
  refine ⟨rfl, r.ticks, fun e t ht => ?_, entry, down_iff (nodeId_mergeWire.trans h.nodeId) entry⟩
  rcases History.Member.learned_merge_eq_some.mp ht with ht | ⟨_, _, rfl⟩
  · exact (r.past e t ht).trans hle
  · exact le_rfl

end Member.Represents

namespace Represents

variable {s : State} {h : History.State NodeId ℚ}

theorem initial : Represents ⟨∅, []⟩ .initial where
  members _ := .none
  net       := .nil

theorem insert (r : Represents s h) (hm : Member.Represents p n m) :
    Represents { s with members := s.members.insert p n }
      { h with members := Function.update h.members p (some m) } where
  net := r.net
  members q := by
    by_cases hq : q = p
    case pos =>
      subst hq
      simpa using Option.Rel.some hm
    case neg => simpa [AList.lookup_insert_ne hq, Function.update_of_ne hq] using r.members q

theorem send (r : Represents s h) (hm : message.Represents message') :
    Represents { s with net := s.net ++ [message] } { h with net := h.net ++ [message'] } :=
  ⟨r.members, List.rel_append r.net <| .cons hm .nil⟩

theorem update (r : Represents s h) {f g} (hf : ∀ n m, s.members.lookup p = some n →
      Member.Represents p n m → n.clock ≤ now → Member.Represents p (f n) (g m)) :
    Option.Rel Represents (s.update p f now) (h.update p g now) := by
  simp only [State.update, History.State.update, Option.bind_eq_bind]
  have hr := r.members p
  generalize hs : s.members.lookup p = o, h.members p = o' at hr
  cases hr
  case none   => exact .none
  case some n m hm =>
    refine rel_guard_bind (by rw [hm.clock]) fun hc => .some <| r.insert <| hf n m hs hm hc

end Represents

theorem Member.Represents.tells (r : Member.Represents p n m) : Tells n.gossip.toWire m.known where
  mem_iff x i := by
    simp only [lookup_toWire, History.Member.known, Set.mem_ofPred_eq]
    simpa [History.Member.Knows] using (r.entry x).known i
  nonneg h := by
    rw [lookup_toWire] at h
    obtain ⟨e, he, rfl⟩ := Option.map_eq_some_iff.mp h
    exact (r.entry _).nonneg e he

section Steps

variable {s : State} {h : History.State NodeId ℚ} (hs : Sound s) (r : Represents s h)
include hs r

theorem rel_merge {rest rest'} (hn : List.Forall₂ Message.Represents rest rest')
    {dest : NodeId} {heartbeats : Heartbeats} (ht : Tells heartbeats events)
    (hc : ∀ {x c}, heartbeats.lookup x = some c → Reached s x c) :
    Option.Rel Represents ({ s with net := rest }.update dest (·.merge heartbeats now) now)
      ({ h with net := rest' }.update dest (·.merge events now) now) := by
  have r' : Represents { s with net := rest } { h with net := rest' } := ⟨r.members, hn⟩
  refine r'.update fun n m hl hm hle => hm.merge (hs.honest hl) hle ht fun c hd => ?_
  obtain ⟨n', hn', hc⟩ := hc hd
  cases Option.some.inj <| hl.symm.trans hn'
  exact hc

theorem rel_deliver (i : Nat) (now : ℚ) (again : Bool) :
    Option.Rel Represents (s.deliver i now again) (h.deliver i now again) := by
  have rest : List.Forall₂ Message.Represents (if again then s.net else s.net.eraseIdx i)
      (if again then h.net else h.net.eraseIdx i) := by
    split
    case isTrue  => exact r.net
    case isFalse => exact Log.forall₂_eraseIdx r.net i
  have hr := Log.rel_getElem? r.net i
  simp only [State.deliver, History.State.deliver, Option.bind_eq_bind]
  generalize hm : s.net[i]? = o, h.net[i]? = o' at hr
  cases hr
  case none => exact .none
  case some hr =>
    have hc {x c} := hs.sent (x := x) (c := c) <| List.mem_of_getElem? hm
    cases hr
    case reply ht   => exact rel_merge hs r rest ht hc
    case request ht =>
      refine (rel_merge hs r rest ht hc).bind fun s' h' r' => ?_
      exact (r'.members _).bind fun n m hm => .some <| r'.send <| .reply hm.tells

theorem rel_step (l : Label) : Option.Rel Represents (s.step l) (h.step l.history) := by
  cases l
  case start p now =>
    refine rel_guard_bind ?_ fun _ => .some <| r.insert <| .init p now
    have hp := r.members p
    rw [← AList.lookup_eq_none]
    generalize s.members.lookup p = o, h.members p = o' at hp
    cases hp <;> simp
  case tick p now => exact r.update fun n m hn hm hc => hm.tick (hs.honest hn) hc
  case send a b   =>
    exact (r.members a).bind fun n m hm => .some <| r.send <| .request hm.tells
  case deliver i now again => exact rel_deliver hs r i now again
  case lose i     => exact .some ⟨r.members, Log.forall₂_eraseIdx r.net i⟩

end Steps

-- Along the same steps, either both systems can go or neither can. Tables and messages represent
-- causal histories at all times.
theorem represents_histories (ls : List Label) :
    Option.Rel Represents (system.exec (fun _ _ => True) ⟨∅, []⟩ ls)
      ((History.system NodeId ℚ).exec (fun _ _ => True) .initial (ls.map Label.history)) := by
  have rel := system.exec_simulates (History.system NodeId ℚ) (f := id) (g := Label.history)
    (R := fun s h => Sound s ∧ Represents s h) (fun l s h hr => ?step) ⟨.initial, .initial⟩ ls
  case step =>
    obtain ⟨hs, r⟩ := hr
    exact (rel_step hs r l).imp fun _ _ h r => ⟨hs.step <| step_effect h, r⟩
  rw [List.map_id] at rel
  exact rel.imp fun _ _ _ hr => hr.right

end DynamoKV.Gossip

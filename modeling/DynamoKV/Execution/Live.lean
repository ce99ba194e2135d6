import DynamoKV.Execution.Exchange
import DynamoKV.Execution.Recovery

-- A cluster whose nodes also gossip. Puts leave hints for the peers which are believed to be down,
-- and only the other peers are sent the hints that are held for them.
namespace DynamoKV

def Message.dest {α : Type*} : Message α → NodeId
  | .put _ dest _ _ | .delete _ dest _ | .hint dest _ _ _ | .flush _ dest _ _ _ => dest
  | .flushed holder _ _ => holder

namespace Live

-- `clocks` are the latest times that the nodes have read from their clocks.
structure State (α : Type) where
  cluster : DynamoKV.State α
  gossip  : Gossip.State
  clocks  : NodeId → ℚ

-- A step in which the clock is read carries its time.
inductive Label (α : Type)
  | gossip (label : Gossip.Label)
  | request (label : DynamoKV.Label α)
  | putWrite (op : Nat) (now : ℚ)
  | flush (holder target : NodeId) (now : ℚ)

-- `_partition_by_liveness`
def partitionByLiveness (g : GossipState) (now timeout : ℚ) (prefs : List NodeId) :
    List NodeId × List NodeId :=
  prefs.foldl (fun (live, presumedDown) nodeId =>
    if g.believedDown nodeId now timeout then (live, presumedDown ++ [nodeId])
    else (live ++ [nodeId], presumedDown)) ([], [])

variable {α : Type} (cfg : Config) (timeout : ℚ)

-- These steps are taken without a look at the table.
def Oblivious : DynamoKV.Label α → Prop
  | .putWrite _ _ | .flush _ _ => False
  | _                          => True

instance : DecidablePred (Oblivious (α := α))
  | .putWrite _ _ | .flush _ _ => .isFalse id
  | .invoke _ _ _ | .read _ _ | .readDone _ _ _ | .getReturn _ | .writeDone _ _ _ | .putReturn _
  | .invokeDelete _ _ | .deleteDone _ _ _ | .deleteReturn _ | .deliver _ _ | .lose _ =>
    .isTrue trivial

namespace State

variable (s : State α)

-- The node that takes a step, if it might not be up.
def actor : DynamoKV.Label α → Option NodeId
  | .invoke coord _ _ | .invokeDelete coord _ => some coord
  | .read _ r                                 => some r
  | .deliver m _                              => s.cluster.net[m]?.map Message.dest
  | _                                         => none

-- Clocks do not go back.
def readClock : Option (NodeId × ℚ) → Option (State α)
  | none          => some s
  | some (p, now) => do
    guard (s.clocks p ≤ now)
    return { s with clocks := Function.update s.clocks p now }

def gossipStep (l : Gossip.Label) : Option (State α) := do
  guard (l.Among cfg)
  let s' ← s.readClock <| s.gossip.reader l
  let gossip ← s.gossip.step l
  return { s' with gossip }

def request (l : DynamoKV.Label α) : Option (State α) := do
  guard (Oblivious l ∧ ∀ p ∈ s.actor l, p ∈ s.gossip.members)
  let cluster ← DynamoKV.step cfg s.cluster l
  return { s with cluster }

-- What the coordinator of a put finds in its table.
def presumedDown (i : Nat) (now : ℚ) : Option (List NodeId) := do
  let op ← s.cluster.ops[i]?
  let n ← s.gossip.members.lookup op.coord
  return (partitionByLiveness n.gossip now timeout op.prefs).2

def putWrite (i : Nat) (now : ℚ) : Option (State α) := do
  let op ← s.cluster.ops[i]?
  let s' ← s.readClock <| some (op.coord, now)
  let down ← s.presumedDown timeout i now
  let cluster ← DynamoKV.step cfg s.cluster (.putWrite i down)
  return { s' with cluster }

-- An iteration of the loop over the peers. It may be delayed, as the clock is read once for all
-- peers.
def flush (holder target : NodeId) (now : ℚ) : Option (State α) := do
  let n ← s.gossip.members.lookup holder
  guard (¬n.gossip.believedDown target now timeout)
  let cluster ← DynamoKV.step cfg s.cluster (.flush holder target)
  return { s with
    cluster
    clocks := Function.update s.clocks holder (max (s.clocks holder) now) }

def step : Label α → Option (State α)
  | .gossip l                => s.gossipStep cfg l
  | .request l               => s.request cfg l
  | .putWrite i now          => s.putWrite cfg timeout i now
  | .flush holder target now => s.flush cfg timeout holder target now

-- The step of the cluster, if it takes one.
def project : Label α → Option (DynamoKV.Label α)
  | .gossip _              => none
  | .request l             => some l
  | .putWrite i now        => (s.presumedDown timeout i now).map (.putWrite i)
  | .flush holder target _ => some (.flush holder target)

end State

def system (α : Type) : TransitionSystem (State α) (Label α) where
  init s := s.cluster = .initial ∧ s.gossip = ⟨∅, []⟩
  step   := State.step cfg timeout

-- A restriction of the steps of the cluster.
def On (P : DynamoKV.State α → DynamoKV.Label α → Prop) (s : State α) (l : Label α) : Prop :=
  ∀ l' ∈ s.project timeout l, P s.cluster l'

variable {cfg} {timeout} {s s' : State α}

section Steps

theorem foldl_partition {g : GossipState} {now : ℚ} (prefs live presumedDown : List NodeId) :
    prefs.foldl (fun (live, presumedDown) nodeId =>
      if g.believedDown nodeId now timeout then (live, presumedDown ++ [nodeId])
      else (live ++ [nodeId], presumedDown)) (live, presumedDown) =
    (live ++ prefs.filter (!g.believedDown · now timeout),
      presumedDown ++ prefs.filter (g.believedDown · now timeout)) := by
  induction prefs generalizing live presumedDown
  case nil             => simp
  case cons p prefs hi =>
    rw [List.foldl_cons]
    by_cases hd : g.believedDown p now timeout <;> simp [hd, hi]

theorem partitionByLiveness_eq (g : GossipState) (now timeout : ℚ) (prefs : List NodeId) :
    partitionByLiveness g now timeout prefs = (prefs.filter (!g.believedDown · now timeout),
      prefs.filter (g.believedDown · now timeout)) :=
  foldl_partition prefs [] []

-- The cluster writes to the nodes that are presumed to be live, and leaves hints for the other
-- ones.
theorem filter_presumedDown (g : GossipState) (now timeout : ℚ) (prefs : List NodeId) :
    (prefs.filter (· ∉ (partitionByLiveness g now timeout prefs).2),
      prefs.filter (· ∈ (partitionByLiveness g now timeout prefs).2)) =
    partitionByLiveness g now timeout prefs := by
  rw [partitionByLiveness_eq]
  refine Prod.ext_iff.mpr ⟨List.filter_congr fun p hp => ?_, List.filter_congr fun p hp => ?_⟩ <;>
    simp [hp]

theorem readClock_eq_some : s.readClock (some (p, now)) = some s' ↔
    s.clocks p ≤ now ∧ s' = { s with clocks := Function.update s.clocks p now } := by
  by_cases hle : s.clocks p ≤ now <;> simp [State.readClock, guard, hle, eq_comm]

-- A step is one of the gossip or one of the cluster, and no clock goes back.
inductive Effect (cfg : Config) (timeout : ℚ) (s : State α) : Label α → State α → Prop
  | gossip : s.gossip.step l = some g → (∀ p, s.clocks p ≤ clocks p) →
    (∀ p now, s.gossip.reader l = some (p, now) → clocks p = now) →
    Effect cfg timeout s (.gossip l) ⟨s.cluster, g, clocks⟩
  | cluster : s.project timeout l = some l' → DynamoKV.step cfg s.cluster l' = some c →
    (∀ p, s.clocks p ≤ clocks p) → Effect cfg timeout s l ⟨c, s.gossip, clocks⟩

theorem le_update {clocks : NodeId → ℚ} (h : clocks q ≤ now) (p : NodeId) :
    clocks p ≤ Function.update clocks q now p := by
  by_cases hp : p = q
  case pos => simp [hp, h]
  case neg => simp [hp]

theorem step_effect (h : s.step cfg timeout l = some s') : Effect cfg timeout s l s' := by
  cases l
  case gossip l =>
    obtain ⟨_, _, h⟩ := Option.bind_eq_some_iff.mp h
    obtain ⟨s₁, h₁, h⟩ := Option.bind_eq_some_iff.mp h
    obtain ⟨g, hg, h⟩ := Option.bind_eq_some_iff.mp h
    cases Option.some.inj h
    cases hr : s.gossip.reader l <;> rw [hr] at h₁
    case none =>
      cases Option.some.inj h₁
      exact .gossip hg (fun _ => le_rfl) <| by simp [hr]
    case some x =>
      obtain ⟨hle, rfl⟩ := readClock_eq_some.mp h₁
      refine .gossip hg (le_update hle) fun p now he => ?_
      cases Option.some.inj <| hr.symm.trans he
      simp
  case request l =>
    obtain ⟨_, _, h⟩ := Option.bind_eq_some_iff.mp h
    obtain ⟨c, hc, h⟩ := Option.bind_eq_some_iff.mp h
    cases Option.some.inj h
    exact .cluster rfl hc fun _ => le_rfl
  case putWrite i now =>
    obtain ⟨op, _, h⟩ := Option.bind_eq_some_iff.mp h
    obtain ⟨s₁, h₁, h⟩ := Option.bind_eq_some_iff.mp h
    obtain ⟨down, hd, h⟩ := Option.bind_eq_some_iff.mp h
    obtain ⟨c, hc, h⟩ := Option.bind_eq_some_iff.mp h
    obtain ⟨hle, rfl⟩ := readClock_eq_some.mp h₁
    cases Option.some.inj h
    exact .cluster (by simp [State.project, hd]) hc <| le_update hle
  case flush g t now =>
    obtain ⟨n, _, h⟩ := Option.bind_eq_some_iff.mp h
    obtain ⟨_, _, h⟩ := Option.bind_eq_some_iff.mp h
    obtain ⟨c, hc, h⟩ := Option.bind_eq_some_iff.mp h
    cases Option.some.inj h
    exact .cluster rfl hc <| le_update <| le_max_left ..

end Steps

section Refinement

-- A live cluster is a cluster, and its nodes gossip as they do without one.
theorem reachable_cluster {P : DynamoKV.State α → DynamoKV.Label α → Prop}
    (r : (system cfg timeout α).Reachable (On timeout P) s) :
    (DynamoKV.cluster cfg α).Reachable P s.cluster := by
  refine r.abstract (fun _ hi => hi.left) fun s l s' hp h => ?_
  rcases step_effect h with _ | ⟨hl, hc, _⟩
  · exact .inl rfl
  · exact .inr ⟨_, hp _ hl, hc⟩

theorem reachable_gossip {P : State α → Label α → Prop} (r : (system cfg timeout α).Reachable P s) :
    Gossip.system.Reachable (fun _ _ => True) s.gossip := by
  refine r.abstract (fun _ hi => hi.right) fun s l s' hp h => ?_
  rcases step_effect h with ⟨hg, _, _⟩ | _
  · exact .inr ⟨_, trivial, hg⟩
  · exact .inl rfl

-- The causal histories of the nodes stand behind their tables.
theorem exists_history (r : (Gossip.system).Reachable (fun _ _ => True) g) :
    ∃ h, (History.system NodeId ℚ).Reachable (fun _ _ => True) h ∧ Gossip.Represents g h := by
  refine r.invariant (I := fun g => ∃ h, (History.system NodeId ℚ).Reachable (fun _ _ => True) h ∧
    Gossip.Represents g h) (fun g hg => ?init) fun g l g' r _ h hi => ?step
  case init => exact ⟨.initial, .initial rfl, hg ▸ .initial⟩
  case step =>
    obtain ⟨x, hx, hr⟩ := hi
    have rel := Gossip.rel_step (Gossip.Sound.of_reachable r) hr l
    rw [show g.step l = some g' from h] at rel
    generalize hx' : x.step l.history = o at rel
    cases rel
    case some x' hr' => exact ⟨x', hx.step trivial hx', hr'⟩

theorem mem_presumedDown {n : Gossip.Member} {m : History.Member NodeId ℚ} {prefs : List NodeId}
    (hr : n.Represents p m) (now timeout : ℚ) :
    q ∈ (partitionByLiveness n.gossip now timeout prefs).2 ↔
      q ∈ prefs ∧ q ≠ p ∧ m.Silent q timeout now := by
  rw [partitionByLiveness_eq, List.mem_filter, hr.down]

-- The put makes hints instead of writes for the replicas that the coordinator has not heard from.
def SkipsSilent (cfg : Config) (timeout : ℚ) (s : State α) (h : History.State NodeId ℚ) (i : Nat)
    (now : ℚ) (c : DynamoKV.State α) : Prop :=
  ∃ op m down, s.cluster.ops[i]? = some op ∧ h.members op.coord = some m ∧
    DynamoKV.step cfg s.cluster (.putWrite i down) = some c ∧
    ∀ q, q ∈ down ↔ q ∈ op.prefs ∧ q ≠ op.coord ∧ m.Silent q timeout now

-- A state of the cluster, and causal histories behind the tables which decide what its nodes do.
-- Puts skip replicas which have been silent, and hints are sent to other nodes.
structure Refines (cfg : Config) (timeout : ℚ)
    (P : DynamoKV.State α → DynamoKV.Label α → Prop) (s : State α) (h : History.State NodeId ℚ) :
    Prop where
  cluster   : (DynamoKV.cluster cfg α).Reachable P s.cluster
  histories : (History.system NodeId ℚ).Reachable (fun _ _ => True) h
  tables    : Gossip.Represents s.gossip h
  putWrite  : ∀ {i now s'}, s.step cfg timeout (.putWrite i now) = some s' →
    SkipsSilent cfg timeout s h i now s'.cluster
  flush     : ∀ {g t now s'}, s.step cfg timeout (.flush g t now) = some s' →
    ∃ m, h.members g = some m ∧ ¬m.Silent t timeout now

-- A live cluster refines the cluster and the gossip of its nodes at the same time.
theorem exists_refines {P : DynamoKV.State α → DynamoKV.Label α → Prop}
    (r : (system cfg timeout α).Reachable (On timeout P) s) : ∃ h, Refines cfg timeout P s h := by
  obtain ⟨h, hh, hr⟩ := exists_history <| reachable_gossip r
  have exists_member {p n} (hn : s.gossip.members.lookup p = some n) :
      ∃ m, h.members p = some m ∧ n.Represents p m := by
    have hm := hr.members p
    rw [hn] at hm
    generalize he : h.members p = o at hm
    cases hm
    case some m hm => exact ⟨m, rfl, hm⟩
  refine ⟨h, reachable_cluster r, hh, hr, fun {i now s'} hs => ?put, fun {g t now s'} hs => ?flush⟩
  case put =>
    obtain ⟨op, ho, hs⟩ := Option.bind_eq_some_iff.mp hs
    obtain ⟨_, h₁, hs⟩ := Option.bind_eq_some_iff.mp hs
    obtain ⟨down, hd, hs⟩ := Option.bind_eq_some_iff.mp hs
    obtain ⟨c, hc, hs⟩ := Option.bind_eq_some_iff.mp hs
    cases Option.some.inj hs
    obtain ⟨op', ho', hd⟩ := Option.bind_eq_some_iff.mp hd
    obtain ⟨n, hn, hd⟩ := Option.bind_eq_some_iff.mp hd
    cases Option.some.inj <| ho.symm.trans ho'
    cases Option.some.inj hd
    obtain ⟨m, hm, hr⟩ := exists_member hn
    exact ⟨op, m, _, ho, hm, hc, fun q => mem_presumedDown hr now timeout⟩
  case flush =>
    obtain ⟨n, hn, hs⟩ := Option.bind_eq_some_iff.mp hs
    obtain ⟨_, hb, hs⟩ := Option.bind_eq_some_iff.mp hs
    obtain ⟨c, hc, _⟩ := Option.bind_eq_some_iff.mp hs
    obtain ⟨m, hm, hr⟩ := exists_member hn
    refine ⟨m, hm, fun hsilent =>
      (Option.guard_eq_some' ..).mp hb <| (hr.down ..).mpr ⟨?_, hsilent⟩⟩
    obtain ⟨_, hf, _⟩ := State.step_eq_some.mp hc
    exact (State.flush_eq_some.mp hf).left.right

end Refinement

section Recovery

variable {k : Key}

-- Nothing gets lost and clients make no requests. A flush is not delayed.
def Label.Recovers (s : State α) : Label α → Prop
  | .gossip l      => ∀ m, l ≠ .lose m
  | .request l     => l.Recovers
  | .putWrite _ _  => False
  | .flush g _ now => s.clocks g ≤ now

def RecoveryRun (timeout : ℚ) (k : Key) (s : State α) (l : Label α) : Prop :=
  On timeout (ConvergeRun k) s l ∧ l.Recovers s

theorem readClock_self (h : ∀ p now, o = some (p, now) → now = s.clocks p) :
    s.readClock o = some s := by
  match o with
  | none          => rfl
  | some (p, now) => simp [State.readClock, h p now rfl]

theorem gossipStep_eq_some (hp : Gossip.Prompt cfg s.clocks s.gossip l)
    (h : s.gossip.step l = some g) : s.gossipStep cfg l = some { s with gossip := g } := by
  simp [State.gossipStep, guard, hp.among, readClock_self hp.now, h]

theorem run_gossip (r : Gossip.system.Run (Gossip.Prompt cfg s.clocks) s.gossip g) :
    (system cfg timeout α).Run (RecoveryRun timeout k) s { s with gossip := g } := by
  induction r
  case refl                   => exact .refl
  case tail g l _ _ hp h hi =>
    have hr : RecoveryRun timeout k { s with gossip := g } (.gossip l) := ⟨nofun, hp.keeps⟩
    exact hi.tail hr <| gossipStep_eq_some (s := { s with gossip := g }) hp h

theorem Timely.of_reachable {P : State α → Label α → Prop}
    (r : (system cfg timeout α).Reachable P s) : Gossip.Timely s.clocks s.gossip := by
  refine r.invariant (I := fun s => Gossip.Timely s.clocks s.gossip) (fun s hs => ?init)
    fun s l s' _ _ h ht => ?step
  case init =>
    intro p n hn
    simp [hs.right] at hn
  case step =>
    rcases step_effect h with ⟨hg, hle, hr⟩ | ⟨_, _, hle⟩
    · exact ht.step hg hle hr
    · exact fun p n hn => (ht p n hn).trans (hle p)

-- Nodes can be started, and learn from each other that they are up, without any help of the
-- cluster.
theorem exists_up (cfg : Config) (timeout : ℚ) (k : Key) (s : State α) (p : NodeId) :
    ∃ s', (system cfg timeout α).Run (RecoveryRun timeout k) s s' ∧ s'.cluster = s.cluster ∧
      p ∈ s'.gossip.members := by
  obtain ⟨g, hr, hp, _⟩ := Gossip.exists_started cfg s.clocks s.gossip p
  exact ⟨_, run_gossip hr, rfl, hp⟩

theorem exists_trust (ht : 0 ≤ timeout) (hpq : q ≠ p) (hq : q ∈ cfg.clusterNodes)
    (r : (system cfg timeout α).Reachable (On timeout (ConvergeRun k)) s) :
    ∃ s' n, (system cfg timeout α).Run (RecoveryRun timeout k) s s' ∧ s'.cluster = s.cluster ∧
      s'.gossip.members.lookup p = some n ∧
      ¬n.gossip.believedDown q (s'.clocks p) timeout := by
  obtain ⟨g₁, r₁, hp, _⟩ := Gossip.exists_started cfg s.clocks s.gossip p
  obtain ⟨g₂, r₂, hq₂, hk⟩ := Gossip.exists_started cfg s.clocks g₁ q
  have run := r₁.trans r₂
  have timely := (Timely.of_reachable r).run run
  have sound := Gossip.Sound.of_reachable <|
    (reachable_gossip r).run <| run.mono fun _ _ _ => trivial
  obtain ⟨n, hn⟩ := Option.isSome_iff_exists.mp <| AList.lookup_isSome.mpr <| hk p hp
  obtain ⟨m, hm⟩ := Option.isSome_iff_exists.mp <| AList.lookup_isSome.mpr hq₂
  obtain ⟨g₃, n', r₃, hn', hi, hl⟩ := Gossip.exists_exchange sound timely hn hm hpq hq
  refine ⟨_, n', run_gossip (run.trans r₃), rfl, hn', ?_⟩
  rw [GossipState.believedDown_iff (hi ▸ hpq) hl]
  simpa using ht

theorem request_eq_some (hl : Oblivious l) (hu : ∀ p ∈ s.actor l, p ∈ s.gossip.members)
    (h : DynamoKV.step cfg s.cluster l = some c) :
    (system cfg timeout α).step s (.request l) = some { s with cluster := c } := by
  have hg : Oblivious l ∧ ∀ p ∈ s.actor l, p ∈ s.gossip.members := ⟨hl, hu⟩
  simp only [system, State.step, State.request, guard]
  rw [if_pos hg, h]
  rfl

theorem flush_eq_some (hn : s.gossip.members.lookup g = some n)
    (hb : ¬n.gossip.believedDown t (s.clocks g) timeout)
    (h : DynamoKV.step cfg s.cluster (.flush g t) = some c) :
    (system cfg timeout α).step s (.flush g t (s.clocks g)) = some { s with cluster := c } := by
  simp [system, State.step, State.flush, hn, guard, hb, h]

-- Every step of a recovery can be taken, if the nodes are up and trust each other by then.
theorem exists_step (ht : 0 ≤ timeout)
    (r : (system cfg timeout α).Reachable (On timeout (ConvergeRun k)) s)
    (hp : DynamoKV.RecoveryRun k s.cluster l) (h : DynamoKV.step cfg s.cluster l = some c) :
    ∃ s', (system cfg timeout α).Run (RecoveryRun timeout k) s s' ∧ s'.cluster = c := by
  have request {s' : State α} (run : (system cfg timeout α).Run (RecoveryRun timeout k) s s')
      (hc : s'.cluster = s.cluster) (hl : Oblivious l)
      (hu : ∀ p ∈ s'.actor l, p ∈ s'.gossip.members) :
      ∃ s', (system cfg timeout α).Run (RecoveryRun timeout k) s s' ∧ s'.cluster = c := by
    rw [← hc] at h hp
    have hr : RecoveryRun timeout k s' (.request l) := ⟨fun l' hl' => ?_, hp.right⟩
    · exact ⟨_, run.tail hr <| request_eq_some hl hu h, rfl⟩
    · cases hl'
      exact hp.left
  cases l
  case writeDone => exact request .refl rfl trivial (by simp [State.actor])
  case deliver m again =>
    cases hm : s.cluster.net[m]?
    case none => exact request .refl rfl trivial (by simp [State.actor, hm])
    case some message =>
      obtain ⟨s', run, hc, hu⟩ := exists_up cfg timeout k s message.dest
      exact request run hc trivial (by simpa [State.actor, hc, hm] using hu)
  case flush g t =>
    obtain ⟨_, hf, _⟩ := State.step_eq_some.mp h
    obtain ⟨hmem, hne⟩ := (State.flush_eq_some.mp hf).left
    obtain ⟨s', n, run, hc, hn, hb⟩ := exists_trust ht hne hmem r
    rw [← hc] at h hp
    refine ⟨_, run.tail ⟨fun l' hl' => ?_, le_rfl⟩ <| flush_eq_some hn hb h, rfl⟩
    cases hl'
    exact hp.left
  all_goals exact hp.right.elim

-- From every state the nodes can convince each other that they are up, and then settle.
theorem exists_recovery_live (hn : 0 < cfg.n) (hs : cfg.Spare) (ht : 0 ≤ timeout)
    (r : (system cfg timeout α).Reachable (On timeout (ConvergeRun k)) s) :
    ∃ s', (system cfg timeout α).Run (RecoveryRun timeout k) s s' ∧ Settled k s'.cluster ∧
      Converged cfg k s'.cluster ∧ Put.versions s'.cluster k = Put.versions s.cluster k := by
  obtain ⟨c, run, settled, converged⟩ := exists_settled hn hs <| reachable_cluster r
  have follow : ∃ s', (system cfg timeout α).Run (RecoveryRun timeout k) s s' ∧ s'.cluster = c ∧
      (system cfg timeout α).Reachable (On timeout (ConvergeRun k)) s' :=
    run.lift (R := fun c s => s.cluster = c ∧
      (system cfg timeout α).Reachable (On timeout (ConvergeRun k)) s) ?step ⟨rfl, r⟩
  case step =>
    rintro c l c' s hp h ⟨rfl, r⟩
    obtain ⟨s', run, hc⟩ := exists_step ht r hp h
    exact ⟨s', run, hc, r.run <| run.mono fun _ _ h => h.left⟩
  obtain ⟨s', run', rfl, _⟩ := follow
  exact ⟨s', run', settled, converged, versions_run run⟩

end Recovery

section Example

instance {P : DynamoKV.State α → DynamoKV.Label α → Prop} [∀ s l, Decidable (P s l)] :
    Decidable (On timeout P s l) :=
  inferInstanceAs (Decidable (∀ l' ∈ s.project timeout l, P s.cluster l'))

abbrev fourNodes : Config :=
  .ofNodes ["a", "b", "c", "d"] 3 1 1

-- "a" and "d" have heard of "c" once, which is long ago when "a" puts a value.
def putLater : List (Label Nat) := [
  .gossip (.start "a" 0), .gossip (.start "b" 0), .gossip (.start "c" 0), .gossip (.start "d" 0),
  .gossip (.send "c" "a"), .gossip (.deliver 0 1 false), .gossip (.lose 0),
  .gossip (.send "c" "d"), .gossip (.deliver 0 1 false), .gossip (.lose 0),
  .request (.invoke "a" "k" (.put 7)), .request (.read 0 "a"), .request (.readDone 0 "a" true)]

abbrev asleep : State Nat :=
  ⟨.initial, ⟨∅, []⟩, fun _ => 0⟩

theorem init_asleep : (system fourNodes 6 Nat).init asleep :=
  ⟨rfl, rfl⟩

abbrev beforeWrite : State Nat :=
  (system fourNodes 6 Nat).after (On 6 (ConvergeRun "k")) asleep putLater

-- "d" holds the hint for "c" then, and the message to "b" gets lost.
abbrev afterWrite : State Nat :=
  (system fourNodes 6 Nat).after (On 6 (ConvergeRun "k")) asleep <|
    putLater ++ [.putWrite 0 100, .request (.deliver 0 false), .request (.deliver 0 false),
      .request (.writeDone 0 "a" true), .request (.putReturn 0), .request (.lose 0)]

theorem exists_refines_silent : ∃ s : State Nat, s.presumedDown 6 0 100 = some ["c"] ∧
    (s.step fourNodes 6 (.putWrite 0 100)).isSome ∧
    ∃ h, Refines fourNodes 6 (ConvergeRun "k") s h := by
  have r : (system fourNodes 6 Nat).Reachable (On 6 (ConvergeRun "k")) beforeWrite :=
    .after init_asleep putLater
  exact ⟨beforeWrite, by decide +kernel, by decide +kernel, exists_refines r⟩

-- The hint which "d" holds cannot be flushed right away.
theorem exists_recovery_live_silent : ∃ s s' : State Nat,
    (s.cluster.node "d").hintStore.pending "c" "k" ≠ [] ∧
    s.step fourNodes 6 (.flush "d" "c" 100) = none ∧
    (system fourNodes 6 Nat).Run (RecoveryRun 6 "k") s s' ∧ Settled "k" s'.cluster ∧
    Converged fourNodes "k" s'.cluster ∧
    Put.versions s'.cluster "k" = Put.versions s.cluster "k" := by
  have hs : Config.Spare fourNodes := ⟨by decide, HashRing.injOn_byFirstLetter fun _ hm => hm⟩
  have r : (system fourNodes 6 Nat).Reachable (On 6 (ConvergeRun "k")) afterWrite :=
    .after init_asleep _
  have hn : (afterWrite.step fourNodes 6 (.flush "d" "c" 100)).isNone := by decide +kernel
  obtain ⟨s', h⟩ := exists_recovery_live (by decide) hs (by norm_num) r
  exact ⟨_, s', by decide +kernel, Option.isNone_iff_eq_none.mp hn, h⟩

end Example
end Live
end DynamoKV

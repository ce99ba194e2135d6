import DynamoKV.Execution.Theorems.Overlap
import DynamoKV.Objects.Auth

-- Whether clients only reach the namespaces which their tokens permit.
namespace DynamoKV

variable {α : Type} {cfg : Config} {s s' : State α} {l : Label α} {c : Credentials} {k : Key}

section Isolation

-- A cluster with any stored data, of which nothing has been requested yet.
structure AtRest (s : State α) : Prop where
  ops     : s.ops = []
  deletes : s.deletes = []
  net     : s.net = []
  hints   : ∀ g t x, (s.node g).hintStore.pending t x = []

-- All writes are requests on the key which the client is allowed to make.
def WritesAllowed (c : Credentials) (k : Key) : Label α → Prop
  | .invoke _ key (.put _) => key = k ∧ c.Allows .put k
  | .invokeDelete _ key    => key = k ∧ c.Allows .delete k
  | _                      => True

-- What happens while a get is executed.
inductive ReadEvent
  | read (replica : NodeId)
  | done (replica : NodeId) (ok : Bool)

def ReadEvent.label (i : Nat) : ReadEvent → Label α
  | .read r    => .read i r
  | .done r ok => .readDone i r ok

-- The response to a get, for given reachable replicas and a given order of their replies.
def respond (cfg : Config) (s : State α) (coord : NodeId) (key : Key) (events : List ReadEvent) :
    Option (Response α (Version α)) := do
  let i := s.ops.length
  let s ← (cluster cfg α).exec (fun _ _ => True) s <|
    .invoke coord key .get :: (events.map (ReadEvent.label i) ++ [.getReturn i])
  let op ← s.ops[i]?
  let o ← op.outcome
  return o.response

-- Allowed writes on the key only change entries in its namespace, and an allowed get depends only
-- on entries which the client may get.
structure Isolated (α : Type) (c : Credentials) (k : Key) : Prop where
  writes : ∀ cfg (s₀ s : State α), AtRest s₀ →
    (cluster cfg α).Run (fun _ l => WritesAllowed c k l) s₀ s →
    ∀ r x, namespaceForKey x ≠ namespaceForKey k → (s.node r).getLocal x = (s₀.node r).getLocal x
  reads  : c.Allows .get k → ∀ cfg (s₁ s₂ : State α),
    (∀ r x, c.Allows .get x → (s₁.node r).getLocal x = (s₂.node r).getLocal x) →
    ∀ coord events, respond cfg s₁ coord k events = respond cfg s₂ coord k events

-- A key in the namespace of another one, which peers also receive as such a key.
def Inside (k x : Key) : Prop :=
  namespaceForKey x = namespaceForKey k ∧
    ∀ y ∈ receivedKey x, namespaceForKey y = namespaceForKey k

-- The keys which are decoded from the key on the way to a replica are in the same namespace, or in
-- one which the client may read. The key of a hint is decoded twice.
structure StaysIn (c : Credentials) (k : Key) : Prop where
  put    : c.Allows .put k → ∀ x ∈ receivedKey k, Inside k x
  delete : c.Allows .delete k → ∀ x ∈ receivedKey k, namespaceForKey x = namespaceForKey k
  get    : c.Allows .get k → ∀ x ∈ receivedKey k, c.Allows .get x

theorem Config.mem_address (hr : PlainRoute route) (h : y ∈ cfg.address route g d x) :
    y = x ∨ y ∈ receivedKey x := by
  unfold address at h
  split at h
  case isTrue  => exact .inl (Option.some.inj h).symm
  case isFalse => exact .inr <| receive_eq hr ▸ h

end Isolation

section Writes

def Message.Inside (k : Key) : Message α → Prop
  | .put _ _ key _ | .delete _ _ key | .flush _ _ _ key _ =>
    ∀ x ∈ key, namespaceForKey x = namespaceForKey k
  | .hint _ _ key _  => ∀ x ∈ key, DynamoKV.Inside k x
  | .flushed _ _ _   => True

theorem Message.store_of_inside {m : Message α} (h : m.Inside k)
    (hx : namespaceForKey x ≠ namespaceForKey k) (r : NodeId) (vs : List (Version α)) :
    m.store r x vs = vs := by
  unfold Message.store
  split
  case h_4             => rfl
  case h_1 | h_2 | h_3 => exact if_neg fun ⟨_, hk⟩ => hx <| h x <| congrArg some hk

theorem Inside.address (h : Inside k x) (hr : PlainRoute route) :
    ∀ y ∈ cfg.address route g d x, namespaceForKey y = namespaceForKey k := by
  intro y hy
  rcases Config.mem_address hr hy with rfl | hy
  · exact h.left
  · exact h.right y hy

theorem StaysIn.inside_put (hs : StaysIn c k) (ha : c.Allows .put k) : Inside k k :=
  ⟨rfl, fun y hy => (hs.put ha y hy).left⟩

theorem StaysIn.inside_delete (hs : StaysIn c k) (ha : c.Allows .delete k) : Inside k k :=
  ⟨rfl, hs.delete ha⟩

-- Everything which is under way stems from the allowed writes.
structure Confined (c : Credentials) (k : Key) (s : State α) : Prop where
  puts    : ∀ op ∈ s.ops, op.request.isPut → op.key = k ∧ c.Allows .put k
  wrote   : ∀ op ∈ s.ops, op.write.isSome → op.request.isPut
  deletes : ∀ d ∈ s.deletes, d.key = k ∧ c.Allows .delete k
  hints   : v ∈ (s.node g).hintStore.pending t x → Inside k x
  net     : ∀ m ∈ s.net, m.Inside k

namespace Confined

theorem of_atRest (h : AtRest s) : Confined c k s where
  puts op ho   := by simp [h.ops] at ho
  wrote op ho  := by simp [h.ops] at ho
  deletes d hd := by simp [h.deletes] at hd
  hints hv     := by simp [h.hints] at hv
  net m hm     := by simp [h.net] at hm

theorem step_puts (cf : Confined c k s) (hl : WritesAllowed c k l) (h : step cfg s l = some s') :
    ∀ op ∈ s'.ops, op.request.isPut → op.key = k ∧ c.Allows .put k := by
  intro op' ho hp
  have ⟨i, hi⟩ := List.getElem?_of_mem ho
  rcases opStep_or_started h hi with ⟨op, ho, e⟩ | hs
  · exact e.key ▸ cf.puts op (List.mem_of_getElem? ho) (e.request ▸ hp)
  · rw [hs.label] at hl
    cases hq : op'.request
    case get       => simp [hq, Request.isPut] at hp
    case put value => rwa [hq] at hl

theorem step_wrote (cf : Confined c k s) (h : step cfg s l = some s') :
    ∀ op ∈ s'.ops, op.write.isSome → op.request.isPut := by
  intro op' ho hw
  have ⟨i, hi⟩ := List.getElem?_of_mem ho
  have ⟨w', hw'⟩ := Option.isSome_iff_exists.mp hw
  rcases opStep_or_started h hi with ⟨op, ho, e⟩ | hs
  · rw [e.request]
    rcases e.write_of hw' with ⟨w, hw, _⟩ | hm
    · exact cf.wrote op (List.mem_of_getElem? ho) (Option.isSome_of_mem hw)
    · have ⟨value, hq, _⟩ := hm.put
      rw [hq, Request.isPut]
  · simp [hs.write] at hw

theorem step_deletes (cf : Confined c k s) (hl : WritesAllowed c k l)
    (h : step cfg s l = some s') : ∀ d ∈ s'.deletes, d.key = k ∧ c.Allows .delete k := by
  intro d' hd
  have ⟨i, hi⟩ := List.getElem?_of_mem hd
  rcases deleteStep_or_started h hi with ⟨d, hd, e⟩ | hs
  · exact e.key ▸ cf.deletes d (List.mem_of_getElem? hd)
  · rwa [hs.label] at hl

theorem step (cf : Confined c k s) (hs : StaysIn c k) (hl : WritesAllowed c k l)
    (h : DynamoKV.step cfg s l = some s') : Confined c k s' := by
  have puts := cf.step_puts hl h
  have wrote := cf.step_wrote h
  have deletes := cf.step_deletes hl h
  have sender {i op w} (h : Sender cfg s l s' i op w) : op.key = k ∧ c.Allows .put k := by
    have ho := List.mem_of_getElem? h.mem
    exact puts op ho <| wrote op ho <| Option.isSome_of_mem h.write
  refine ⟨puts, wrote, deletes, ?hints, ?net⟩
  case hints =>
    intro g t x v hv
    rcases pending_step h hv with hv | ⟨i, op, w, hs', rfl, _⟩ | hd
    · exact cf.hints hv
    · have ⟨hk, ha⟩ := sender hs'
      exact hk.symm ▸ hs.inside_put ha
    · exact cf.net _ (mem_net_of_delivered hd) x rfl
  case net =>
    intro m hm
    rcases net_step h hm with hm | hs'
    · exact cf.net m hm
    · cases hs'
      case put i op w dest hs' _ =>
        have ⟨hk, ha⟩ := sender hs'
        have hi : Inside k op.key := hk.symm ▸ hs.inside_put ha
        exact hi.address plainRoute_internalKeys
      case hint i op w g t hs' =>
        have ⟨hk, ha⟩ := sender hs'
        intro x hx
        rw [hk] at hx
        rcases Config.mem_address plainRoute_internalHints hx with rfl | hx
        · exact hs.inside_put ha
        · exact hs.put ha x hx
      case delete i d dest hd =>
        have ⟨hk, ha⟩ := deletes d (List.mem_of_getElem? hd)
        have hi : Inside k d.key := hk.symm ▸ hs.inside_delete ha
        exact hi.address plainRoute_internalKeys
      case flush hv => exact (cf.hints hv).address plainRoute_internalKeys
      case flushed  => trivial

theorem getLocal_step (cf : Confined c k s) (h : DynamoKV.step cfg s l = some s')
    (hx : namespaceForKey x ≠ namespaceForKey k) (r : NodeId) :
    (s'.node r).getLocal x = (s.node r).getLocal x := by
  rw [DynamoKV.getLocal_step h]
  cases hd : s.delivered l
  case none   => rfl
  case some m => exact m.store_of_inside (cf.net m <| mem_net_of_delivered hd) hx r _

end Confined

theorem StaysIn.writes (hs : StaysIn c k) (h : AtRest s)
    (r : (cluster cfg α).Run (fun _ l => WritesAllowed c k l) s s') :
    Confined c k s' ∧ ∀ n x, namespaceForKey x ≠ namespaceForKey k →
      (s'.node n).getLocal x = (s.node n).getLocal x := by
  induction r
  case refl => exact ⟨.of_atRest h, fun _ _ _ => rfl⟩
  case tail hl e hi =>
    have ⟨cf, same⟩ := hi
    exact ⟨cf.step hs hl e, fun n x hx => (cf.getLocal_step e hx n).trans <| same n x hx⟩

end Writes

section Reads

-- The same get is under way in both states, which store the same where the client may see it.
structure Alike (c : Credentials) (k : Key) (i₁ i₂ : Nat) (s₁ s₂ : State α) : Prop where
  nodes : ∀ r x, c.Allows .get x → (s₁.node r).getLocal x = (s₂.node r).getLocal x
  get   : ∃ (op : Op α) (t : Nat), s₁.ops[i₁]? = some op ∧
    s₂.ops[i₂]? = some { op with started := t } ∧ op.key = k ∧ op.request = .get ∧ op.outcome = none

variable {s₁ s₂ : State α}

theorem StaysIn.answer_eq (hs : StaysIn c k) (ha : c.Allows .get k)
    (h : ∀ r x, c.Allows .get x → (s₁.node r).getLocal x = (s₂.node r).getLocal x)
    (coord r : NodeId) : s₁.answer cfg coord r k = s₂.answer cfg coord r k := by
  unfold State.answer
  split
  case h_2     => rfl
  case h_1 x he =>
    rcases Config.mem_address plainRoute_internalKeys he with rfl | hx
    · exact h r x ha
    · exact h r x <| hs.get ha x hx

theorem Alike.modifyOp (h : Alike c k i₁ i₂ s₁ s₂) {f₁ f₂ : Op α → Op α}
    (hf : ∀ (op : Op α) (t : Nat), op.key = k → op.request = .get → op.outcome = none →
      f₂ { op with started := t } = { f₁ op with started := t } ∧
      (f₁ op).key = k ∧ (f₁ op).request = .get ∧ (f₁ op).outcome = none) :
    Alike c k i₁ i₂ (s₁.modifyOp i₁ f₁).tick (s₂.modifyOp i₂ f₂).tick := by
  have ⟨op, t, ho₁, ho₂, hk, hg, hn⟩ := h.get
  have ⟨he, hf⟩ := hf op t hk hg hn
  refine ⟨h.nodes, f₁ op, t, ?_, ?_, hf⟩
  · simp [State.modifyOp, ho₁]
  · simp [State.modifyOp, ho₂, he]

theorem step_read (ho : s.ops[i]? = some op) : step cfg s (.read i r) =
    if r ∈ op.prefs then
      some (s.modifyOp i (·.handleRead r <| s.answer cfg op.coord r op.key)).tick
    else none := by
  by_cases hr : r ∈ op.prefs <;> simp [step, State.next, State.read, ho, guard, hr]

theorem step_readDone (ho : s.ops[i]? = some op) : step cfg s (.readDone i r ok) =
    if op.read.Completes r ok then some (s.modifyOp i (·.completeRead r ok)).tick else none := by
  by_cases hr : op.read.Completes r ok <;> simp [step, State.next, State.readDone, ho, guard, hr]

theorem Alike.step (h : Alike c k i₁ i₂ s₁ s₂) (hs : StaysIn c k) (ha : c.Allows .get k)
    (e : ReadEvent) : Option.Rel (Alike c k i₁ i₂) (step cfg s₁ (e.label i₁))
      (step cfg s₂ (e.label i₂)) := by
  have ⟨op, t, ho₁, ho₂, hk, hg, hn⟩ := h.get
  cases e
  case read r =>
    rw [ReadEvent.label, ReadEvent.label, step_read ho₁, step_read ho₂]
    by_cases hr : r ∈ op.prefs
    case neg =>
      have hr' : r ∉ ({ op with started := t } : Op α).prefs := hr
      rw [if_neg hr, if_neg hr']
      exact .none
    case pos =>
      have hr' : r ∈ ({ op with started := t } : Op α).prefs := hr
      rw [if_pos hr, if_pos hr', hk, hs.answer_eq ha h.nodes]
      exact .some <| h.modifyOp fun _ _ hk hg hn => ⟨rfl, hk, hg, hn⟩
  case done r ok =>
    rw [ReadEvent.label, ReadEvent.label, step_readDone ho₁, step_readDone ho₂]
    split
    case isFalse => exact .none
    case isTrue  => exact .some <| h.modifyOp fun _ _ hk hg hn => ⟨rfl, hk, hg, hn⟩

-- The response with which a get returns.
def returned (cfg : Config) (i : Nat) (s : State α) : Option (Response α (Version α)) := do
  let s ← step cfg s (.getReturn i)
  let op ← s.ops[i]?
  let o ← op.outcome
  return o.response

theorem returned_eq (ho : s.ops[i]? = some op) (hg : op.request = .get) : returned cfg i s =
    if op.ReadFinished cfg then some (op.mergedRead cfg >>= getResponse op.key) else none := by
  by_cases hf : op.ReadFinished cfg
  case neg =>
    simp [returned, step, State.next, State.getReturn, ho, guard, hf]
  case pos =>
    simp [returned, step, State.next, State.getReturn, ho, guard, hf, hg, Request.isPut,
      State.modifyOp, Op.conclude]

theorem Alike.returned_eq (h : Alike c k i₁ i₂ s₁ s₂) :
    returned cfg i₁ s₁ = returned cfg i₂ s₂ := by
  have ⟨op, t, ho₁, ho₂, _, hg, _⟩ := h.get
  rw [DynamoKV.returned_eq ho₁ hg, DynamoKV.returned_eq ho₂ hg]
  rfl

theorem respond_eq (hp : cfg.preferenceList k = some prefs) : respond cfg s coord k events =
    ((cluster cfg α).exec (fun _ _ => True)
      (s.addOp <| .submit coord k .get s.time prefs).tick
        (events.map (ReadEvent.label s.ops.length))).bind (returned cfg s.ops.length) := by
  simp only [respond, TransitionSystem.exec, if_true, TransitionSystem.exec_append]
  simp only [cluster, step, State.next, State.invoke, hp, Option.bind_eq_bind, Option.pure_def,
    Option.bind_some, Option.map_some, Option.bind_assoc]
  rfl

theorem StaysIn.reads (hs : StaysIn c k) (ha : c.Allows .get k)
    (h : ∀ r x, c.Allows .get x → (s₁.node r).getLocal x = (s₂.node r).getLocal x)
    (coord : NodeId) (events : List ReadEvent) :
    respond cfg s₁ coord k events = respond cfg s₂ coord k events := by
  cases hp : cfg.preferenceList k
  case none =>
    simp [respond, TransitionSystem.exec, cluster, step, State.next, State.invoke, hp]
  case some prefs =>
    rw [respond_eq hp, respond_eq hp]
    have alike : Alike c k s₁.ops.length s₂.ops.length
        (s₁.addOp <| .submit coord k .get s₁.time prefs).tick
        (s₂.addOp <| .submit coord k .get s₂.time prefs).tick :=
      ⟨h, .submit coord k .get s₁.time prefs, s₂.time, by simp [State.addOp, Op.submit]⟩
    have run := (cluster cfg α).exec_rel (fun e _ _ h => h.step hs ha e) alike events
    exact run.bind_eq fun _ _ h => h.returned_eq

end Reads

section Single

-- All keys have one replica, which is not the coordinator of the requests below.
def Config.single : Config where
  hash _       := 0
  clusterNodes := ["c", "p"]
  virtualNodes := 1
  n            := 1
  r            := 1
  w            := 1
  safe         := .lowercase

theorem address_single (h : x ∈ receivedKey k) :
    Config.single.address internalKeys "c" "p" k = some x := by
  rw [Config.address, if_neg (by decide), receive_eq plainRoute_internalKeys]
  exact h

-- A put as far as its replica write.
def putLabels (k : Key) (value : α) : List (Label α) :=
  [.invoke "c" k (.put value), .read 0 "p", .readDone 0 "p" true, .putWrite 0 []]

theorem exec_putLabels (k : Key) (value : α) : ∃ (s : State α) (v : Version α),
    (cluster .single α).exec (fun _ _ => True) .initial (putLabels k value) = some s ∧
    s.net = [.put 0 "p" (Config.single.address internalKeys "c" "p" k) v] :=
  ⟨_, _, rfl, rfl⟩

theorem writesAllowed_of_mem_putLabels (ha : c.Allows .put k) (h : l ∈ putLabels k value) :
    WritesAllowed c k l := by
  simp only [putLabels, List.mem_cons, List.not_mem_nil, or_false] at h
  rcases h with rfl | rfl | rfl | rfl
  · exact ⟨rfl, ha⟩
  all_goals trivial

theorem exists_invokeDelete (s : State α) (h : s.net = []) (k : Key) :
    ∃ s' i, step .single s (.invokeDelete "c" k) = some s' ∧
      s'.net = [.delete i "p" (Config.single.address internalKeys "c" "p" k)] := by
  have hp : Config.single.preferenceList k = some ["p"] := rfl
  refine ⟨_, s.deletes.length, State.step_eq_some.mpr ⟨_, State.invokeDelete_eq_some.mpr
    ⟨_, hp, rfl⟩, rfl⟩, ?_⟩
  simp [State.tick, State.send, State.addDelete, h]

-- A request of which "p" has answered the read.
def readOp (k : Key) (request : Request α) (versions : List (Version α)) (time : Nat) : Op α :=
  Op.submit "c" k request time ["p"] |>.handleRead "p" versions |>.completeRead "p" true

theorem readFinished_readOp : (readOp k request vs time : Op α).ReadFinished cfg :=
  ⟨rfl, .inr rfl⟩

theorem mergedRead_readOp (h : cfg.r = 1) :
    (readOp k request vs time : Op α).mergedRead cfg = .ok (mergeReplies [vs]) := by
  unfold Op.mergedRead Op.replies Config.readThreshold
  rw [h]
  rfl

theorem exec_readOp (cfg : Config) (h : s.ops = [.submit "c" k request time ["p"]]) :
    (cluster cfg α).exec (fun _ _ => True) s [.read 0 "p", .readDone 0 "p" true] = some { s with
      ops := [readOp k request (s.answer cfg "c" "p" k) time], time := s.time + 2 } := by
  let vs := s.answer cfg "c" "p" k
  let s₁ := (s.modifyOp 0 (·.handleRead "p" vs)).tick
  have ho : s.ops[0]? = some (.submit "c" k request time ["p"]) := by rw [h]; rfl
  have ho₁ : s₁.ops[0]? = some (Op.submit "c" k request time ["p"] |>.handleRead "p" vs) := by
    simp only [s₁, State.modifyOp, State.tick, h]
    rfl
  have h₁ : step cfg s (.read 0 "p") = some s₁ := by
    rw [step_read ho]
    exact if_pos <| List.mem_singleton_self "p"
  have h₂ : step cfg s₁ (.readDone 0 "p" true) =
      some { s with ops := [readOp k request vs time], time := s.time + 2 } := by
    rw [step_readDone ho₁]
    simp only [s₁, State.modifyOp, State.tick, h]
    refine if_pos ⟨List.mem_singleton_self "p", List.not_mem_nil, fun _ => ?_⟩
    simp [Op.handleRead, Op.submit, QuorumCall.handle, QuorumCall.submit]
  simp only [TransitionSystem.exec, if_true, cluster, h₁, h₂, Option.bind_some, vs]

theorem respond_single (h : s.ops = []) : respond .single s "c" k [.read "p", .done "p" true] =
    some (getResponse k <| mergeReplies [s.answer .single "c" "p" k]) := by
  have hp : Config.single.preferenceList k = some ["p"] := rfl
  let s₁ := (s.addOp <| .submit "c" k .get s.time ["p"]).tick
  have ho : s₁.ops = [.submit "c" k .get s.time ["p"]] := by simp [s₁, State.addOp, h]
  have ha : s₁.answer .single "c" "p" k = s.answer .single "c" "p" k := by
    simp only [State.answer, s₁, State.node_tick, State.node_addOp]
  have he := exec_readOp .single ho
  rw [respond_eq hp, h, List.length_nil]
  simp only [List.map_cons, List.map_nil, ReadEvent.label]
  rw [he, Option.bind_some, returned_eq rfl rfl, if_pos readFinished_readOp, mergedRead_readOp rfl]
  simp only [readOp, Op.completeRead, Op.handleRead, Op.submit, bind, Except.bind, ha]

-- Nothing but an entry at "p".
def State.storing (k : Key) (v : Version α) : State α :=
  State.initial.modifyNode "p" (·.putLocal k v)

theorem AtRest.initial : AtRest (State.initial : State α) :=
  ⟨rfl, rfl, rfl, by simp [Node.empty]⟩

theorem AtRest.storing (k : Key) (v : Version α) : AtRest (State.storing k v) where
  ops         := rfl
  deletes     := rfl
  net         := rfl
  hints g t x := by
    rw [State.storing, State.node_modifyNode]
    split <;> simp [Node.empty]

theorem getLocal_storing_self (k : Key) (v : Version α) :
    ((State.storing k v).node "p").getLocal k = [v] := by
  rw [State.storing, State.node_modifyNode, if_pos rfl, Node.getLocal_putLocal_self]
  rfl

theorem getLocal_storing_of_ne (h : x ≠ k) (v : Version α) (r : NodeId) :
    ((State.storing k v).node r).getLocal x = [] := by
  rw [State.storing, State.node_modifyNode]
  split
  case isTrue  => rw [Node.getLocal_putLocal_of_ne h]; rfl
  case isFalse => rfl

end Single

section Hinting

-- Keys have the replica "p", for which "q" holds hints.
def Config.hinting : Config where
  hash s       := if s = "q#0" then 1 else 0
  clusterNodes := ["c", "p", "q"]
  virtualNodes := 1
  n            := 1
  r            := 1
  w            := 1
  safe         := .lowercase

theorem preferenceList_hinting (h : k ≠ "q#0") : Config.hinting.preferenceList k = some ["p"] := by
  have hk : Config.hinting.hash k = 0 := if_neg h
  unfold Config.preferenceList HashRing.getPreferenceList HashRing.firstPoint
  rw [hk]
  rfl

theorem hintHolder_hinting (h : k ≠ "q#0") : Config.hinting.hintHolder k ["p"] = some "q" := by
  have hk : Config.hinting.hash k = 0 := if_neg h
  unfold Config.hintHolder HashRing.getPreferenceList HashRing.firstPoint
  rw [hk]
  rfl

theorem net_sendWrites_hint {op : Op α} {w : Write α} (hw : w.hintHolder = some "q")
    (hc : op.coord = "c") (hp : w.call.prefs = []) (hn : s.net = []) (i : Nat) :
    (s.sendWrites cfg i op w ["p"]).net =
      [.hint "q" "p" (cfg.address internalHints "c" "q" op.key) w.version] := by
  simp [State.sendWrites, hw, hp, State.deliverHint, State.send, State.modifyOp, hn, hc]

-- A put which believes "p" to be down, as far as its hint.
theorem exists_hint (h : k ≠ "q#0") (ha : c.Allows .put k) (value : α) :
    ∃ (s : State α) (v : Version α),
      (cluster .hinting α).Run (fun _ l => WritesAllowed c k l) .initial s ∧
      s.net = [.hint "q" "p" (Config.hinting.address internalHints "c" "q" k) v] := by
  let s₁ := (State.addOp (α := α) .initial (.submit "c" k (.put value) 0 ["p"])).tick
  have h₁ : (cluster .hinting α).step .initial (.invoke "c" k (.put value)) = some s₁ := by
    simp only [cluster, step, State.next, State.invoke, preferenceList_hinting h]
    rfl
  let op := readOp k (.put value) (s₁.answer .hinting "c" "p" k) 0
  let s₂ := { s₁ with ops := [op], time := 3 }
  have h₂ : (cluster .hinting α).exec (fun _ _ => True) s₁ [.read 0 "p", .readDone 0 "p" true] =
      some s₂ := exec_readOp .hinting rfl
  let w := op.startWrite .hinting ["p"] (mergeReplies [s₁.answer .hinting "c" "p" k]) value
  let s₃ := s₂.sendWrites .hinting 0 op w ["p"]
  have hw : s₂.putWrite .hinting 0 ["p"] = some s₃ :=
    State.putWrite_eq_some.mpr ⟨op, value, rfl,
      ⟨rfl, readFinished_readOp, show "c" ∉ ["p"] by decide⟩, rfl,
      .inr ⟨_, mergedRead_readOp rfl, rfl⟩⟩
  have h₃ : step .hinting s₂ (.putWrite 0 ["p"]) = some s₃.tick :=
    State.step_eq_some.mpr ⟨s₃, hw, rfl⟩
  have p₁ : WritesAllowed c k (.invoke "c" k (.put value)) := ⟨rfl, ha⟩
  have p₃ : WritesAllowed (α := α) c k (.putWrite 0 ["p"]) := trivial
  have r₁ : (cluster .hinting α).Run (fun _ l => WritesAllowed c k l) .initial s₁ :=
    .single p₁ h₁
  have r₂ : (cluster .hinting α).Run (fun _ l => WritesAllowed c k l) s₁ s₂ :=
    TransitionSystem.run_of_exec h₂ <| by simp [WritesAllowed]
  exact ⟨s₃.tick, w.version, (r₁.trans r₂).tail p₃ h₃,
    net_sendWrites_hint (hintHolder_hinting h) rfl rfl rfl 0⟩

-- Everything that is pending for a node may be flushed to it.
theorem exists_flush (cfg : Config) (ht : t ∈ cfg.clusterNodes) (hne : t ≠ g)
    (h : v ∈ (s.node g).hintStore.pending t k) : ∃ s', step cfg s (.flush g t) = some s' ∧
      .flush g t k (cfg.address internalKeys g t k) v ∈ s'.net := by
  have ⟨vs, hp, hv⟩ := HintStore.exists_pendingFor h
  refine ⟨_, State.step_eq_some.mpr ⟨_, State.flush_eq_some.mpr ⟨⟨ht, hne⟩, rfl⟩, rfl⟩, ?_⟩
  exact List.mem_append_right _ <| List.mem_flatMap.mpr ⟨(k, vs), hp, List.mem_map_of_mem hv⟩

theorem exists_pending_of_delivered (cfg : Config) {m : Nat}
    (hm : s.net[m]? = some (.hint g t (some k) v)) : ∃ s',
      step cfg s (.deliver m false) = some s' ∧ ∃ w, w ∈ (s'.node g).hintStore.pending t k := by
  refine ⟨_, State.step_eq_some.mpr ⟨_, State.deliver_eq_some.mpr ⟨_, hm, rfl⟩, rfl⟩, ?_⟩
  refine List.exists_mem_of_ne_nil _ ?_
  rw [State.node_tick, State.handle, State.node_modifyNode, if_pos rfl, Node.hintStore_addHint,
    HintStore.pending_add_self]
  exact reconcile_ne_nil _ _

end Hinting

namespace Isolated

-- What allowed writes send has no effect outside the namespace.
theorem store_eq {s₀ : State α} (h : Isolated α c k) (h₀ : AtRest s₀)
    (r : (cluster cfg α).Run (fun _ l => WritesAllowed c k l) s₀ s) {message : Message α}
    (hm : message ∈ s.net) (hx : namespaceForKey x ≠ namespaceForKey k) (n : NodeId) :
    message.store n x ((s.node n).getLocal x) = (s₀.node n).getLocal x := by
  have ⟨m, hm⟩ := List.getElem?_of_mem hm
  have ⟨s', h'⟩ : ∃ s', step cfg s (.deliver m false) = some s' := by
    simp [step, State.next, State.deliver, hm]
  have hp : WritesAllowed c k (.deliver (α := α) m false) := trivial
  have hd : s.delivered (.deliver m false) = some message := hm
  have he := h.writes cfg s₀ s' h₀ (r.tail hp h') n x hx
  rwa [getLocal_step h', hd] at he

theorem put [Inhabited α] (h : Isolated α c k) (ha : c.Allows .put k) :
    ∀ x ∈ receivedKey k, namespaceForKey x = namespaceForKey k := by
  intro x hx
  by_contra hn
  obtain ⟨s, v, he, hm⟩ := exec_putLabels k (default : α)
  rw [address_single hx] at hm
  have r : (cluster .single α).Run (fun _ l => WritesAllowed c k l) .initial s :=
    TransitionSystem.run_of_exec he fun l hl _ => writesAllowed_of_mem_putLabels ha hl
  have he := h.store_eq .initial r (hm ▸ List.mem_singleton_self _) hn "p"
  simp only [Message.store, and_self, if_true] at he
  exact reconcile_ne_nil _ _ he

theorem hint [Inhabited α] (h : Isolated α c k) (ha : c.Allows .put k) :
    ∀ x ∈ receivedKey k, ∀ y ∈ receivedKey x, namespaceForKey y = namespaceForKey k := by
  intro x hx y hy
  by_contra hn
  have hk : k ≠ "q#0" := by
    rintro rfl
    obtain rfl : x = "q" := Option.some.inj <| hx.symm.trans (by decide)
    obtain rfl : y = "q" := Option.some.inj <| hy.symm.trans (by decide)
    exact hn <| by decide
  obtain ⟨s₁, v, r, hm⟩ := exists_hint hk ha (default : α)
  rw [Config.address, if_neg (by decide), receive_eq plainRoute_internalHints, hx] at hm
  have hg : s₁.net[0]? = some (.hint "q" "p" (some x) v) := hm ▸ List.getElem?_cons_zero
  have ⟨s₂, h₂, w, hw⟩ := exists_pending_of_delivered .hinting hg
  have ⟨s₃, h₃, hf⟩ := exists_flush .hinting (by decide) (by decide) hw
  rw [Config.address, if_neg (by decide), receive_eq plainRoute_internalKeys, hy] at hf
  have p₂ : WritesAllowed (α := α) c k (.deliver 0 false) := trivial
  have p₃ : WritesAllowed (α := α) c k (.flush "q" "p") := trivial
  have he := h.store_eq .initial (r.tail p₂ h₂ |>.tail p₃ h₃) hf hn "p"
  simp only [Message.store, and_self, if_true] at he
  exact reconcile_ne_nil _ _ he

theorem delete [Inhabited α] (h : Isolated α c k) (ha : c.Allows .delete k) :
    ∀ x ∈ receivedKey k, namespaceForKey x = namespaceForKey k := by
  intro x hx
  by_contra hn
  have v : Version α := ⟨default, ⟨∅⟩⟩
  obtain ⟨s, i, h₁, hm⟩ := exists_invokeDelete (.storing x v) rfl k
  rw [address_single hx] at hm
  have hp : WritesAllowed c k (.invokeDelete (α := α) "c" k) := ⟨rfl, ha⟩
  have r : (cluster .single α).Run (fun _ l => WritesAllowed c k l) (.storing x v) s :=
    .single hp h₁
  have he := h.store_eq (.storing x v) r (hm ▸ List.mem_singleton_self _) hn "p"
  rw [getLocal_storing_self] at he
  simp [Message.store] at he

-- A get which the replica answers from an entry which the client may not get.
theorem get [Inhabited α] (h : Isolated α c k) (ha : c.Allows .get k) :
    ∀ x ∈ receivedKey k, c.Allows .get x := by
  intro x hx
  by_contra hn
  have v : Version α := ⟨default, ⟨∅⟩⟩
  have agree (r : NodeId) (y : Key) (hy : c.Allows .get y) :
      ((State.storing x v).node r).getLocal y = ((State.initial : State α).node r).getLocal y := by
    have hne : y ≠ x := fun e => hn <| e ▸ hy
    exact getLocal_storing_of_ne hne v r
  have he := h.reads ha .single (.storing x v) .initial agree "c" [.read "p", .done "p" true]
  rw [respond_single rfl, respond_single rfl] at he
  simp only [State.answer, address_single hx, getLocal_storing_self] at he
  have he := Option.some.inj he
  cases he

end Isolated

theorem isolated_iff_staysIn [Inhabited α] : Isolated α c k ↔ StaysIn c k := by
  constructor
  case mp =>
    intro h
    exact ⟨fun ha x hx => ⟨h.put ha x hx, h.hint ha x hx⟩, h.delete, h.get⟩
  case mpr =>
    intro hs
    constructor
    case writes => exact fun cfg s₀ s h r => (hs.writes h r).right
    case reads  => exact fun ha cfg s₁ s₂ h => hs.reads ha h

-- A token for the default namespace, and a key in it which peers receive as "x:y".
theorem not_isolated : ¬∀ (c : Credentials) (k : Key), PublicKey k → Isolated Nat c k := by
  intro h
  let entry : TokenEntry := ⟨"a", some (AList.insert "default" ["read", "write", "delete"] ∅)⟩
  let c : Credentials := ⟨AList.insert "t" entry ∅, some "Bearer t"⟩
  have hi := h c "x%3Ay" (by decide)
  have hx := hi.put (by decide) "x:y" (by decide)
  revert hx
  decide

end DynamoKV

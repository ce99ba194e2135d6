import DynamoKV.Execution.Clients

-- Whether a key means the same to all nodes.
namespace DynamoKV

variable {α : Type} {cfg : Config} {s s' : State α} {l : Label α} {k : Key}

section Frame

-- The operation whose coordinator takes the step.
def Label.operation : Label α → Option Nat
  | .read i _ | .readDone i _ _ | .getReturn i | .putWrite i _ | .writeDone i _ _ | .putReturn i =>
    some i
  | .invoke _ _ _ | .invokeDelete _ _ | .deleteDone _ _ _ | .deleteReturn _ | .deliver _ _ | .lose _
  | .flush _ _ => none

-- The message was sent for an operation on the key, or for hints which are held under it.
def Message.For (s : State α) (k : Key) : Message α → Prop
  | .put i _ _ _                            => ∃ op ∈ s.ops[i]?, op.key = k
  | .delete i _ _                           => ∃ d ∈ s.deletes[i]?, d.key = k
  | .hint _ _ _ v                           => ∃ p : Put s k, p.version = v
  | .flush _ _ hintKey _ _ | .flushed _ _ hintKey => hintKey = k

def ActsFor (s : State α) (k : Key) (l : Label α) : Prop :=
  (∃ i ∈ l.operation, ∃ op ∈ s.ops[i]?, op.key = k) ∨ ∃ m ∈ s.delivered l, m.For s k

theorem Message.store_of_not_for (c : CleanState s) {m : Message α} (hm : m ∈ s.net)
    (hf : ¬m.For s k) (r : NodeId) (vs : List (Version α)) : m.store r k vs = vs := by
  unfold Message.store
  split
  case h_1 i dest key v =>
    refine if_neg fun ⟨_, hk⟩ => hf ?_
    have ⟨op, _, ho, _, he, _⟩ := c.put hm
    exact ⟨op, ho, (Option.some.inj he).symm.trans hk⟩
  case h_2 g dest hintKey key v =>
    refine if_neg fun ⟨_, hk⟩ => hf ?_
    exact (Option.some.inj (c.flush hm).right).symm.trans hk
  case h_3 i dest key =>
    refine if_neg fun ⟨_, hk⟩ => hf ?_
    have ⟨d, hd, he⟩ := c.delete hm
    exact ⟨d, hd, (Option.some.inj he).symm.trans hk⟩
  case h_4 => rfl

namespace State

theorem pending_deliverHint_of_ne (h : k ≠ k') :
    ((s.deliverHint cfg c g t k' v).node r).hintStore.pending t' k =
      (s.node r).hintStore.pending t' k := by
  unfold deliverHint
  split
  case isFalse => rfl
  case isTrue  =>
    rw [node_modifyNode]
    split
    case isFalse   => rfl
    case isTrue hr => rw [Node.hintStore_addHint, HintStore.pending_add_of_ne (.inr h), hr]

theorem pending_foldl_deliverHint_of_ne (h : k ≠ k') (ts : List NodeId) :
    ((ts.foldl (deliverHint · cfg c g · k' v) s).node r).hintStore.pending t k =
      (s.node r).hintStore.pending t k := by
  induction ts generalizing s
  case nil         => rfl
  case cons t _ hi => rw [List.foldl_cons, hi, pending_deliverHint_of_ne h]

theorem pending_sendWrites_of_ne {op : Op α} (h : k ≠ op.key) (i : Nat) (w : Write α)
    (ts : List NodeId) : ((s.sendWrites cfg i op w ts).node r).hintStore.pending t k =
      (s.node r).hintStore.pending t k := by
  simp only [sendWrites, node_send, node_modifyOp]
  split
  case h_1 => rfl
  case h_2 => exact pending_foldl_deliverHint_of_ne h ts

theorem pending_modifyNode {f : Node α → Node α}
    (h : (f (s.node g)).hintStore.pending t k = (s.node g).hintStore.pending t k) :
    ((s.modifyNode g f).node r).hintStore.pending t k = (s.node r).hintStore.pending t k := by
  rw [node_modifyNode]
  split
  case isTrue hr => rw [h, hr]
  case isFalse   => rfl

theorem pending_handle {message : Message α} (hh : ∀ g t v, message ≠ .hint g t (some k) v)
    (hf : ∀ g t, message ≠ .flushed g t k) : ((s.handle message).node r).hintStore.pending t k =
      (s.node r).hintStore.pending t k := by
  match message with
  | .put _ _ (some key) v | .flush _ _ _ (some key) v =>
    exact pending_modifyNode (f := (·.putLocal key v)) rfl
  | .delete _ _ (some key) => exact pending_modifyNode (f := (·.deleteLocal key |>.2)) rfl
  | .hint g t' (some key) v =>
    have hk : k ≠ key := fun e => hh g t' v <| by rw [e]
    exact pending_modifyNode (f := (·.addHint t' key v)) <| HintStore.pending_add_of_ne (.inr hk)
  | .flushed g t' key =>
    have hk : k ≠ key := fun e => hf g t' <| by rw [e]
    exact pending_modifyNode (f := (·.clearHints t' key)) <|
      HintStore.pending_clearKey_of_ne (.inr hk)
  | .put _ _ none _ | .delete _ _ none | .hint _ _ none _ | .flush _ _ _ none _ => rfl

theorem pending_next_of_not_actsFor (h : s.next cfg l = some s') (hf : ¬ActsFor s k l)
    (around : ∀ {v}, Around s k v → ∃ p : Put s k, p.version = v) :
    (s'.node r).hintStore.pending t k = (s.node r).hintStore.pending t k := by
  cases nextStep h
  case putWrite i op _ _ _ ho _ _ _ =>
    exact pending_sendWrites_of_ne (fun hk => hf <| .inl ⟨i, rfl, op, ho, hk.symm⟩) _ _ _
  case hint i op _ _ _ _ ho _ _ _ _ _ =>
    exact pending_deliverHint_of_ne fun hk => hf <| .inl ⟨i, rfl, op, ho, hk.symm⟩
  case deliver hm =>
    refine pending_handle (fun g t v he => hf ?_) fun g t he => hf ?_
    case refine_1 =>
      subst he
      exact .inr ⟨_, hm, around <| .sent (List.mem_of_getElem? hm) ⟨rfl, rfl⟩⟩
    case refine_2 =>
      subst he
      exact .inr ⟨_, hm, rfl⟩
  case idle | invokeDelete | lose | flush => rfl

end State
end Frame

section Wire

-- The clients only use these keys.
def Label.KeysIn (K : Set Key) (l : Label α) : Prop :=
  ∀ k ∈ l.starts, k ∈ K

-- Peers receive the keys as they are, so that what is stored or hinted under a key was put under
-- it, and operations on other keys do not change it.
structure WireFaithful (α : Type) (K : Set Key) : Prop where
  received : ∀ k ∈ K, ∀ safe,
    receive safe internalKeys k = some k ∧ receive safe internalHints k = some k
  unshared : ∀ cfg s, (cluster cfg α).Reachable (fun _ l => l.KeysIn K) s → ∀ k v, Around s k v →
    ∃ p : Put s k, p.version = v
  frame    : ∀ cfg s, (cluster cfg α).Reachable (fun _ l => l.KeysIn K) s → ∀ l s' k,
    step cfg s l = some s' → ¬ActsFor s k l → ∀ r,
      (s'.node r).getLocal k = (s.node r).getLocal k ∧
      ∀ t, (s'.node r).hintStore.pending t k = (s.node r).hintStore.pending t k

theorem CleanState.of_reachable {P : State α → Label α → Prop} (r : (cluster cfg α).Reachable P s)
    (hc : ∀ s l, P s l → l.CleanKey) : CleanState s :=
  r.invariant (fun _ hs => hs ▸ .initial) fun _ _ _ _ hp h c => c.step (hc _ _ hp) h

-- All versions which are around belong to a put of their key.
theorem exists_put_of_around {P : State α → Label α → Prop} (r : (cluster cfg α).Reachable P s)
    (hc : ∀ s l, P s l → l.CleanKey) : ∀ k v, Around s k v → ∃ p : Put s k, p.version = v := by
  refine r.invariant (I := fun s => ∀ k v, Around s k v → ∃ p : Put s k, p.version = v)
    (fun s hs k v a => ?_) fun s l s' r hp h hi k v a => ?_
  case refine_1 =>
    subst hs
    cases a
    case stored h         => simp at h
    case hinted h         => simp [Node.empty] at h
    case sent h _         => simp [State.initial] at h
    case active h _ _ _ _ => simp [State.initial] at h
  case refine_2 =>
    have c := CleanState.of_reachable r hc
    rcases a.of_step c (c.step (hc _ _ hp) h) h with a | ⟨i, op, w, hm, hk, hv⟩
    · obtain ⟨p, hp⟩ := hi k v a
      obtain ⟨p', e⟩ := p.exists_continues h
      exact ⟨p', e.version.trans hp⟩
    · obtain ⟨p', _, hp'⟩ := Put.of_minted hm hk
      exact ⟨p', hp'.trans hv⟩

theorem wireFaithful_iff_plain {K : Set Key} (hK : ∀ k ∈ K, PublicKey k) :
    WireFaithful α K ↔ ∀ k ∈ K, PlainKey k := by
  constructor
  case mp =>
    intro h k hk
    exact receive_eq_self_iff plainRoute_internalKeys (hK k hk) |>.mp
      (h.received k hk .lowercase).left
  case mpr =>
    intro plain
    have hc (s : State α) (l : Label α) (hl : l.KeysIn K) : l.CleanKey := by
      cases l
      case invoke key _       => exact ⟨hK key <| hl key rfl, plain key <| hl key rfl⟩
      case invokeDelete _ key => exact ⟨hK key <| hl key rfl, plain key <| hl key rfl⟩
      all_goals trivial
    constructor
    case received =>
      intro k hk safe
      exact ⟨receive_eq_self_iff plainRoute_internalKeys (hK k hk) |>.mpr (plain k hk),
        receive_eq_self_iff plainRoute_internalHints (hK k hk) |>.mpr (plain k hk)⟩
    case unshared => exact fun cfg s r => exists_put_of_around r hc
    case frame =>
      intro cfg s r l s' k h hf n
      have c := CleanState.of_reachable r hc
      constructor
      case left =>
        rw [getLocal_step h]
        cases hd : s.delivered l
        case none   => rfl
        case some m =>
          exact m.store_of_not_for c (mem_net_of_delivered hd)
            (fun hm => hf <| .inr ⟨m, hd, hm⟩) n _
      case right =>
        intro t
        obtain ⟨s₁, hn, rfl⟩ := State.step_eq_some.mp h
        have hp := State.pending_next_of_not_actsFor (r := n) (t := t) hn hf <|
          exists_put_of_around r hc k _
        exact hp

theorem wireFaithful_iff_plain_two : WireFaithful Nat {"user:1", "user:2"} :=
  (wireFaithful_iff_plain <| by simp; decide).mpr <| by simp; decide

theorem not_wireFaithful : ¬∀ K, (∀ k ∈ K, PublicKey k) → WireFaithful Nat K := by
  intro h
  have hr := (h {"a?b"} (by simp; decide)).received "a?b" rfl .lowercase
  revert hr
  decide

end Wire
end DynamoKV

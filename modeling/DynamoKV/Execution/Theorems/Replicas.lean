import DynamoKV.Execution.Theorems.Operations

-- What a step can do to the replicas, to the hints they hold and to the messages in flight.
namespace DynamoKV

variable {α : Type} {cfg : Config} {s s' : State α} {l : Label α}

-- Some replica writes of the put have not completed yet.
def Write.Active (w : Write α) : Prop :=
  w.call.completed.length < w.call.prefs.length

instance {w : Write α} : Decidable w.Active :=
  inferInstanceAs (Decidable (_ < _))

-- The siblings a replica stores after a message has been delivered, given those stored before.
def Message.store (r : NodeId) (k : Key) (vs : List (Version α)) : Message α → List (Version α)
  | .put _ dest (some key) v | .flush _ dest _ (some key) v =>
    if dest = r ∧ key = k then reconcile vs v else vs
  | .delete _ dest (some key) => if dest = r ∧ key = k then [] else vs
  | _                         => vs

namespace Message

-- Where and what a message stores.
def stored : Message α → Option (NodeId × Key × Version α)
  | .put _ dest (some key) v | .flush _ dest _ (some key) v => some (dest, key, v)
  | _                                                        => none

-- Where a message changes what is stored.
def changed : Message α → Option (NodeId × Key)
  | .put _ dest (some key) _ | .flush _ dest _ (some key) _ | .delete _ dest (some key) =>
    some (dest, key)
  | _ => none

theorem changed_of_stored {m : Message α} (h : m.stored = some x) :
    m.changed = some (x.1, x.2.1) := by
  unfold stored at h
  split at h
  case h_1 | h_2 => cases Option.some.inj h; rfl
  case h_3       => contradiction

theorem store_of_changed_ne {m : Message α} (h : m.changed ≠ some (r, k)) (vs : List (Version α)) :
    m.store r k vs = vs := by
  unfold store
  split
  case h_1 | h_2 | h_3 =>
    refine if_neg fun ⟨hr, hk⟩ => h ?_
    rw [changed, hr, hk]
  case h_4 => rfl

end Message

namespace State

def delivered (s : State α) : Label α → Option (Message α)
  | .deliver m _ => s.net[m]?
  | _            => none

theorem delivered_eq_none (h : s.taken l = none) : s.delivered l = none := by
  cases l
  case deliver => exact h
  all_goals rfl

section Nodes

theorem node_modifyNode :
    (s.modifyNode r f).node r' = if r' = r then f (s.node r) else s.node r' := by
  unfold modifyNode node
  split
  case isTrue h  => subst h; simp
  case isFalse h => simp [AList.lookup_insert_ne h]

@[simp]
theorem node_initial : (initial : State α).node r = .empty :=
  rfl

@[simp]
theorem node_addOp : (s.addOp op).node r = s.node r :=
  rfl

@[simp]
theorem node_addDelete : (s.addDelete d).node r = s.node r :=
  rfl

@[simp]
theorem node_modifyOp : (s.modifyOp i f).node r = s.node r :=
  rfl

@[simp]
theorem node_modifyDelete : (s.modifyDelete i g).node r = s.node r :=
  rfl

@[simp]
theorem node_send : (s.send ms).node r = s.node r :=
  rfl

@[simp]
theorem node_tick : s.tick.node r = s.node r :=
  rfl

@[simp]
theorem getLocal_deliverHint :
    ((s.deliverHint cfg c h t k v).node r).getLocal k' = (s.node r).getLocal k' := by
  unfold deliverHint
  split
  case isFalse => rfl
  case isTrue  =>
    rw [node_modifyNode]
    split
    case isTrue hr => rw [hr, Node.getLocal_addHint]
    case isFalse   => rfl

@[simp]
theorem getLocal_foldl_deliverHint (ts : List NodeId) :
    ((ts.foldl (deliverHint · cfg c h · k v) s).node r).getLocal k' = (s.node r).getLocal k' := by
  induction ts generalizing s
  case nil         => rfl
  case cons t _ hi => simp [hi]

theorem getLocal_modifyNode_putLocal :
    ((s.modifyNode r (·.putLocal k v)).node r').getLocal k' =
      if r = r' ∧ k = k' then reconcile ((s.node r').getLocal k') v
      else (s.node r').getLocal k' := by
  rw [node_modifyNode]
  split_ifs with hr h h
  case pos => obtain ⟨rfl, rfl⟩ := h; exact Node.getLocal_putLocal_self
  case neg =>
    subst hr
    exact Node.getLocal_putLocal_of_ne fun e => h ⟨rfl, e.symm⟩
  case pos => exact absurd h.left.symm hr
  case neg => rfl

theorem getLocal_modifyNode_deleteLocal :
    ((s.modifyNode r (·.deleteLocal k |>.2)).node r').getLocal k' =
      if r = r' ∧ k = k' then [] else (s.node r').getLocal k' := by
  rw [node_modifyNode]
  split_ifs with hr h h
  case pos => obtain ⟨rfl, rfl⟩ := h; exact Node.getLocal_deleteLocal_self
  case neg =>
    subst hr
    exact Node.getLocal_deleteLocal_of_ne fun e => h ⟨rfl, e.symm⟩
  case pos => exact absurd h.left.symm hr
  case neg => rfl

theorem getLocal_modifyNode {f : Node α → Node α} (h : ∀ n, (f n).getLocal k = n.getLocal k) :
    ((s.modifyNode r f).node r').getLocal k = (s.node r').getLocal k := by
  rw [node_modifyNode]
  split
  case isTrue hr => rw [h, hr]
  case isFalse   => rfl

theorem getLocal_handle (message : Message α) :
    ((s.handle message).node r).getLocal k = message.store r k ((s.node r).getLocal k) := by
  match message with
  | .put _ _ (some _) _ | .flush _ _ _ (some _) _ => exact getLocal_modifyNode_putLocal
  | .delete _ _ (some _)                          => exact getLocal_modifyNode_deleteLocal
  | .hint _ _ (some _) _                          => exact getLocal_modifyNode fun _ => rfl
  | .flushed _ _ _                                => exact getLocal_modifyNode fun _ => rfl
  | .put _ _ none _ | .delete _ _ none | .hint _ _ none _ | .flush _ _ _ none _ => rfl

@[simp]
theorem getLocal_sendWrites (i : Nat) :
    ((s.sendWrites cfg i op w ts).node r).getLocal k = (s.node r).getLocal k := by
  simp only [sendWrites, node_send, node_modifyOp]
  split <;> simp

end Nodes
end State

namespace State

-- The messages which a step leaves in flight.
def left (s : State α) : Label α → List (Message α)
  | .deliver m again => if again then s.net else s.net.eraseIdx m
  | .lose m          => s.net.eraseIdx m
  | _                => s.net

theorem left_eq (h : s.taken l = none) : s.left l = s.net := by
  cases l
  case deliver m again => simp_all [taken, left, List.eraseIdx_of_length_le]
  case lose m          => simp_all [taken, left, List.eraseIdx_of_length_le]
  all_goals rfl

theorem prefix_handle (message : Message α) : s.net <+: (s.handle message).net := by
  unfold handle
  split
  case h_5 => exact List.prefix_append ..
  all_goals exact List.prefix_rfl

theorem prefix_deliverHint : s.net <+: (s.deliverHint cfg c h t k v).net := by
  unfold deliverHint
  split
  case isTrue  => exact List.prefix_rfl
  case isFalse => exact List.prefix_append ..

theorem prefix_foldl_deliverHint (ts : List NodeId) :
    s.net <+: (ts.foldl (deliverHint · cfg c h · k v) s).net := by
  induction ts generalizing s
  case nil         => exact List.prefix_rfl
  case cons t _ hi => exact prefix_deliverHint.trans hi

theorem prefix_sendWrites (i : Nat) : s.net <+: (s.sendWrites cfg i op w ts).net := by
  unfold sendWrites
  split
  case h_1 => exact List.prefix_append ..
  case h_2 => exact (prefix_foldl_deliverHint ts).trans <| List.prefix_append ..

end State

open State in
-- New messages are added at the end.
theorem left_prefix_step (h : step cfg s l = some s') : s.left l <+: s'.net := by
  obtain ⟨s₁, hn, rfl⟩ := step_eq_some.mp h
  cases nextStep hn
  case idle ht      => exact left_eq ht ▸ List.prefix_rfl
  case putWrite     => exact prefix_sendWrites _
  case hint         => exact prefix_deliverHint (s := s.modifyOp _ _)
  case invokeDelete => exact List.prefix_append ..
  case deliver m _ again _ =>
    exact prefix_handle (s := { s with net := if again then s.net else s.net.eraseIdx m }) _
  case lose         => exact List.prefix_rfl
  case flush        => exact List.prefix_append ..

open State in
theorem getLocal_next (h : s.next cfg l = some s') (r : NodeId) (k : Key) :
    (s'.node r).getLocal k =
      (s.delivered l).elim ((s.node r).getLocal k) (·.store r k ((s.node r).getLocal k)) := by
  cases nextStep h
  case idle ht    => rw [delivered_eq_none ht]; rfl
  case putWrite   => exact getLocal_sendWrites _
  case hint       => exact getLocal_deliverHint
  case deliver hm =>
    rw [delivered, hm]
    exact getLocal_handle _
  case invokeDelete | lose | flush => rfl

-- Replicas change what they store only when they handle a message.
theorem getLocal_step (h : step cfg s l = some s') (r : NodeId) (k : Key) :
    (s'.node r).getLocal k =
      (s.delivered l).elim ((s.node r).getLocal k) (·.store r k ((s.node r).getLocal k)) := by
  have ⟨s₁, h, hs⟩ := State.step_eq_some.mp h
  exact hs ▸ getLocal_next h r k

-- The put which a step sends messages for, or leaves hints for, at the end of the step.
structure Sender (cfg : Config) (s : State α) (l : Label α) (s' : State α) (i : Nat) (op : Op α)
    (w : Write α) : Prop where
  mem    : s'.ops[i]? = some op
  write  : op.write = some w
  active : (∃ op₀, s.ops[i]? = some op₀ ∧ op₀.key = op.key ∧ Mints cfg s l i op₀ w) ∨
    ∃ op₀ w₀, s.ops[i]? = some op₀ ∧ op₀.key = op.key ∧ op₀.write = some w₀ ∧
      w₀.version = w.version ∧ w₀.Active

theorem mints_of_putWrite {op : Op α}
    (hg : op.write.isNone ∧ op.ReadFinished cfg ∧ op.coord ∉ down) (hq : op.request = .put value)
    (hm : op.mergedRead cfg = .ok merged) :
    Mints cfg s (.putWrite i down) i op (op.startWrite cfg down merged value) where
  label    := ⟨down, rfl⟩
  fresh    := by simpa using hg.left
  finished := hg.right.left
  merged   := hm
  put      := ⟨value, hq, rfl⟩
  holder   := rfl
  prefs    := List.filter_subset_self _
  handled  := rfl

theorem Sender.of_sendWrites {op : Op α} (ho : s.ops[i]? = some op) (hm : Mints cfg s l i op w)
    (ts : List NodeId) : Sender cfg s l (s.sendWrites cfg i op w ts) i
      { op with write := some w } w where
  mem    := by simp [State.ops_sendWrites, State.modifyOp, ho]
  write  := rfl
  active := .inl ⟨op, ho, rfl, hm⟩

theorem Sender.of_failed {op : Op α} (ho : s.ops[i]? = some op) (hw : op.write = some w)
    (hc : w.call.Completes r ok) (g : NodeId) :
    Sender cfg s l ((s.modifyOp i (·.completeWrite r ok)).deliverHint cfg op.coord g r op.key
      w.version) i (op.completeWrite r ok) { w with call := w.call.complete r ok } where
  mem    := by simp [State.modifyOp, ho]
  write  := Op.write_completeWrite hw
  active := .inr ⟨op, w, ho, rfl, hw, rfl, hc.completed_lt⟩

-- The messages which a step may send.
inductive Sent (cfg : Config) (s : State α) (l : Label α) (s' : State α) : Message α → Prop
  | put : Sender cfg s l s' i op w → dest ∈ op.prefs →
      Sent cfg s l s' (.put i dest (cfg.address internalKeys op.coord dest op.key) w.version)
  | hint : Sender cfg s l s' i op w →
      Sent cfg s l s' (.hint h t (cfg.address internalHints op.coord h op.key) w.version)
  | delete : s'.deletes[i]? = some d →
      Sent cfg s l s' (.delete i dest (cfg.address internalKeys d.coord dest d.key))
  | flush : v ∈ (s.node h).hintStore.pending t k →
      Sent cfg s l s' (.flush h t k (cfg.address internalKeys h t k) v)
  | flushed : Sent cfg s l s' (.flushed h t k)

theorem Sender.tick (h : Sender cfg s l s' i op w) : Sender cfg s l s'.tick i op w :=
  ⟨h.mem, h.write, h.active⟩

theorem Sent.tick (h : Sent cfg s l s' m) : Sent cfg s l s'.tick m := by
  cases h
  case put hs hd => exact .put hs.tick hd
  case hint hs   => exact .hint hs.tick
  case delete hd => exact .delete hd
  case flush hv  => exact .flush hv
  case flushed   => exact .flushed

section Hints

theorem mem_reconcile {vs : List (Version α)} (h : v ∈ reconcile vs w) : v ∈ vs ∨ v = w :=
  Antichain.mem_insertMax <| reconcile_eq_insertMax vs w ▸ h

namespace HintStore

variable {hs : HintStore α}

theorem mem_pending_add (h : v ∈ (hs.add t k w).pending t' k') :
    v ∈ hs.pending t' k' ∨ t' = t ∧ k' = k ∧ v = w := by
  by_cases he : t' = t ∧ k' = k
  case pos =>
    obtain ⟨rfl, rfl⟩ := he
    rw [pending_add_self] at h
    exact (mem_reconcile h).imp_right (⟨rfl, rfl, ·⟩)
  case neg => exact .inl <| pending_add_of_ne (not_and_or.mp he) ▸ h

theorem mem_pending_clearKey (h : v ∈ (hs.clearKey t k).pending t' k') : v ∈ hs.pending t' k' := by
  by_cases he : t' = t ∧ k' = k
  case pos =>
    obtain ⟨rfl, rfl⟩ := he
    simp at h
  case neg => exact pending_clearKey_of_ne (not_and_or.mp he) ▸ h

end HintStore

namespace State

theorem mem_pending_modifyNode {f : Node α → Node α}
    (h : v ∈ ((s.modifyNode r f).node r').hintStore.pending t k) :
    v ∈ (s.node r').hintStore.pending t k ∨
      r' = r ∧ v ∈ (f (s.node r')).hintStore.pending t k := by
  rw [node_modifyNode] at h
  split at h
  case isTrue hr => exact .inr ⟨hr, hr ▸ h⟩
  case isFalse   => exact .inl h

theorem mem_pending_deliverHint
    (h : v ∈ ((s.deliverHint cfg c g t k w).node r).hintStore.pending t' k') :
    v ∈ (s.node r).hintStore.pending t' k' ∨ k' = k ∧ v = w := by
  unfold deliverHint at h
  split at h
  case isFalse => exact .inl h
  case isTrue  =>
    rcases mem_pending_modifyNode h with h | ⟨_, h⟩
    · exact .inl h
    · exact (HintStore.mem_pending_add h).imp_right And.right

theorem mem_pending_foldl_deliverHint (ts : List NodeId)
    (h : v ∈ ((ts.foldl (deliverHint · cfg c g · k w) s).node r).hintStore.pending t' k') :
    v ∈ (s.node r).hintStore.pending t' k' ∨ k' = k ∧ v = w := by
  induction ts generalizing s
  case nil         => exact .inl h
  case cons t _ hi => exact (hi h).elim mem_pending_deliverHint .inr

theorem mem_pending_sendWrites {op : Op α} {w : Write α}
    (h : v ∈ ((s.sendWrites cfg i op w ts).node r).hintStore.pending t k) :
    v ∈ (s.node r).hintStore.pending t k ∨ k = op.key ∧ v = w.version := by
  simp only [sendWrites, node_send, node_modifyOp] at h
  split at h
  case h_1 => exact .inl h
  case h_2 => exact mem_pending_foldl_deliverHint _ h

theorem mem_pending_handle {message : Message α}
    (h : v ∈ ((s.handle message).node r).hintStore.pending t k) :
    v ∈ (s.node r).hintStore.pending t k ∨ message = .hint r t (some k) v := by
  match message with
  | .put _ dest (some key) w | .flush _ dest _ (some key) w =>
    simp only [handle, node_modifyOp, node_send] at h
    rcases mem_pending_modifyNode h with h | ⟨_, h⟩
    · exact .inl h
    · exact .inl <| by simpa only [Node.hintStore_putLocal] using h
  | .delete _ dest (some key) =>
    simp only [handle, node_modifyDelete] at h
    rcases mem_pending_modifyNode h with h | ⟨_, h⟩
    · exact .inl h
    · exact .inl <| by simpa only [Node.hintStore_deleteLocal] using h
  | .hint dest target (some key) w =>
    simp only [handle] at h
    rcases mem_pending_modifyNode h with h' | ⟨rfl, h'⟩
    · exact .inl h'
    · rw [Node.hintStore_addHint] at h'
      rcases HintStore.mem_pending_add h' with h' | ⟨rfl, rfl, rfl⟩
      · exact .inl h'
      · exact .inr rfl
  | .flushed holder target hintKey =>
    simp only [handle] at h
    rcases mem_pending_modifyNode h with h | ⟨_, h⟩
    · exact .inl h
    · rw [Node.hintStore_clearHints] at h
      exact .inl <| HintStore.mem_pending_clearKey h
  | .put _ _ none _ | .delete _ _ none | .hint _ _ none _ | .flush _ _ _ none _ => exact .inl h

end State

open State in
theorem pending_next (h : s.next cfg l = some s')
    (hv : v ∈ (s'.node r).hintStore.pending t k) : v ∈ (s.node r).hintStore.pending t k ∨
      (∃ i op w, Sender cfg s l s' i op w ∧ op.key = k ∧ w.version = v) ∨
      s.delivered l = some (.hint r t (some k) v) := by
  cases nextStep h
  case putWrite i _ _ _ _ ho hg hq hm =>
    rcases mem_pending_sendWrites hv with hv | ⟨rfl, rfl⟩
    · exact .inl hv
    · exact .inr <| .inl ⟨i, _, _, .of_sendWrites ho (mints_of_putWrite hg hq hm) _, rfl, rfl⟩
  case hint i _ _ _ _ _ ho hw hc _ _ _ =>
    rcases mem_pending_deliverHint hv with hv | ⟨rfl, rfl⟩
    · exact .inl hv
    · exact .inr <| .inl ⟨i, _, _, .of_failed ho hw hc _, rfl, rfl⟩
  case deliver hm =>
    refine (mem_pending_handle hv).imp_right fun he => .inr ?_
    rw [delivered, hm, he]
  case idle | invokeDelete | lose | flush => exact .inl hv

-- Hints are left by a put whose replica writes are under way, or are handed over by a message.
theorem pending_step (h : step cfg s l = some s')
    (hv : v ∈ (s'.node r).hintStore.pending t k) : v ∈ (s.node r).hintStore.pending t k ∨
      (∃ i op w, Sender cfg s l s' i op w ∧ op.key = k ∧ w.version = v) ∨
      s.delivered l = some (.hint r t (some k) v) := by
  obtain ⟨s₁, hn, rfl⟩ := State.step_eq_some.mp h
  rcases pending_next hn hv with hv | ⟨i, op, w, hs, hk, hw⟩ | hd
  · exact .inl hv
  · exact .inr <| .inl ⟨i, op, w, hs.tick, hk, hw⟩
  · exact .inr <| .inr hd

end Hints

section Net

namespace State

theorem mem_net_deliverHint (h : m ∈ (s.deliverHint cfg c g t k v).net) :
    m ∈ s.net ∨ m = .hint g t (cfg.address internalHints c g k) v := by
  unfold deliverHint at h
  split at h
  case isTrue  => exact .inl h
  case isFalse => simpa [send] using h

theorem mem_net_foldl_deliverHint (ts : List NodeId)
    (h : m ∈ (ts.foldl (deliverHint · cfg c g · k v) s).net) :
    m ∈ s.net ∨ ∃ t, m = .hint g t (cfg.address internalHints c g k) v := by
  induction ts generalizing s
  case nil         => exact .inl h
  case cons t _ hi => exact (hi h).elim (fun h => (mem_net_deliverHint h).imp_right (⟨t, ·⟩)) .inr

theorem mem_net_sendWrites {op : Op α} {w : Write α} (h : m ∈ (s.sendWrites cfg i op w ts).net) :
    m ∈ s.net ∨ (∃ g t, m = .hint g t (cfg.address internalHints op.coord g op.key) w.version) ∨
      ∃ dest ∈ w.call.prefs,
        m = .put i dest (cfg.address internalKeys op.coord dest op.key) w.version := by
  simp only [sendWrites, send, List.mem_append, List.mem_map] at h
  rcases h with h | ⟨dest, hd, rfl⟩
  · split at h
    case h_1        => exact .inl h
    case h_2 holder _ =>
      rcases mem_net_foldl_deliverHint _ h with h | ⟨t, h⟩
      · exact .inl h
      · exact .inr <| .inl ⟨holder, t, h⟩
  · exact .inr <| .inr ⟨dest, hd, rfl⟩

theorem mem_net_of_rest {again : Bool} (h : m ∈ if again then s.net else s.net.eraseIdx i) :
    m ∈ s.net := by
  split at h
  case isTrue  => exact h
  case isFalse => exact List.mem_of_mem_eraseIdx h

theorem mem_net_handle {message : Message α} (h : m ∈ (s.handle message).net) :
    m ∈ s.net ∨ ∃ g t k key v, message = .flush g t k (some key) v ∧ m = .flushed g t k := by
  match message with
  | .flush g t k (some key) v =>
    rcases List.mem_append.mp h with h | h
    · exact .inl h
    · exact .inr ⟨g, t, k, key, v, rfl, List.mem_singleton.mp h⟩
  | .put _ _ none _ | .delete _ _ none | .hint _ _ none _ | .flush _ _ _ none _
  | .put _ _ (some _) _ | .delete _ _ (some _) | .hint _ _ (some _) _ | .flushed _ _ _ =>
    exact .inl h

end State

open State in
theorem net_next (h : s.next cfg l = some s') (hm : m ∈ s'.net) :
    m ∈ s.net ∨ Sent cfg s l s' m := by
  cases nextStep h
  case idle => exact .inl hm
  case putWrite i op down _ _ ho hg hq hr =>
    have hs := Sender.of_sendWrites ho (mints_of_putWrite hg hq hr) <| op.prefs.filter (· ∈ down)
    rcases mem_net_sendWrites hm with hm | ⟨g, t, rfl⟩ | ⟨dest, hd, rfl⟩
    · exact .inl hm
    · have := Sent.hint (h := g) (t := t) hs
      exact .inr this
    · have := Sent.put hs <| List.filter_subset_self _ hd
      exact .inr this
  case hint i _ _ g ok r ho hw hc _ _ _ =>
    rcases mem_net_deliverHint hm with hm | rfl
    · exact .inl hm
    · have hs : Sender cfg s (.writeDone i r ok) _ i _ _ := .of_failed ho hw hc g
      have := Sent.hint (h := g) (t := r) hs
      exact .inr this
  case invokeDelete k prefs c _ =>
    rcases List.mem_append.mp hm with hm | hm
    · exact .inl hm
    · obtain ⟨dest, _, rfl⟩ := List.mem_map.mp hm
      exact .inr <| .delete (d := .submit c k s.time prefs) (by simp [addDelete, send])
  case deliver =>
    rcases mem_net_handle hm with hm | ⟨_, _, _, _, _, _, rfl⟩
    · exact .inl <| mem_net_of_rest hm
    · exact .inr .flushed
  case lose => exact .inl <| List.mem_of_mem_eraseIdx hm
  case flush =>
    rcases List.mem_append.mp hm with hm | hm
    · exact .inl hm
    · obtain ⟨⟨k, vs⟩, hp, hm⟩ := List.mem_flatMap.mp hm
      obtain ⟨v, hv, rfl⟩ := List.mem_map.mp hm
      exact .inr <| .flush <| HintStore.mem_pendingFor hp ▸ hv

-- Every message in flight has been sent by some step.
theorem net_step (h : step cfg s l = some s') (hm : m ∈ s'.net) :
    m ∈ s.net ∨ Sent cfg s l s' m := by
  obtain ⟨s₁, hn, rfl⟩ := State.step_eq_some.mp h
  exact (net_next hn hm).imp_right Sent.tick

end Net
end DynamoKV

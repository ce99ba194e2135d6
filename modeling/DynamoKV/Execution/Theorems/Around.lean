import DynamoKV.Execution.Theorems.Deletes

-- Where versions of a key may be found in a cluster, and where they come from.
namespace DynamoKV

variable {α : Type} {cfg : Config} {s s' : State α} {l : Label α}

section Keys

-- The keys which every peer receives as they are.
structure Clean (key : Key) : Prop where
  accepted : PublicKey key
  plain    : PlainKey key

instance : Decidable (Clean key) :=
  decidable_of_iff (PublicKey key ∧ PlainKey key)
    ⟨fun ⟨h₁, h₂⟩ => ⟨h₁, h₂⟩, fun ⟨h₁, h₂⟩ => ⟨h₁, h₂⟩⟩

theorem Clean.address (h : Clean k) (hr : PlainRoute route) (c r : NodeId) :
    cfg.address route c r k = some k := by
  unfold Config.address
  split
  case isTrue  => rfl
  case isFalse => exact receive_eq_self_iff hr h.accepted |>.mpr h.plain

theorem Clean.internalKeys (h : Clean k) (c r : NodeId) :
    cfg.address DynamoKV.internalKeys c r k = some k :=
  h.address plainRoute_internalKeys c r

theorem Clean.internalHints (h : Clean k) (c r : NodeId) :
    cfg.address DynamoKV.internalHints c r k = some k :=
  h.address plainRoute_internalHints c r

theorem Clean.answer (h : Clean k) : s.answer cfg c r k = (s.node r).getLocal k := by
  rw [State.answer, h.internalKeys]

-- The keys of client requests.
def Label.CleanKey : Label α → Prop
  | .invoke _ key _ | .invokeDelete _ key => Clean key
  | _                                     => True

instance : DecidablePred (Label.CleanKey : Label α → Prop)
  | .invoke _ key _ | .invokeDelete _ key => inferInstanceAs (Decidable (Clean key))
  | .read _ _ | .readDone _ _ _ | .getReturn _ | .putWrite _ _ | .writeDone _ _ _ | .putReturn _
  | .deleteDone _ _ _ | .deleteReturn _ | .deliver _ _ | .lose _ | .flush _ _ =>
    inferInstanceAs (Decidable True)

end Keys

-- The version is on its way to be stored under the key, directly or as a hint.
def Message.Carries (key : Key) (version : Version α) : Message α → Prop
  | .put _ _ (some k) v | .hint _ _ (some k) v | .flush _ _ _ (some k) v => k = key ∧ v = version
  | _                                                                   => False

-- The version can still reach replicas, or it has.
inductive Around (s : State α) (key : Key) (version : Version α) : Prop
  | stored : version ∈ (s.node r).getLocal key → Around s key version
  | hinted : version ∈ (s.node h).hintStore.pending t key → Around s key version
  | sent {m : Message α} : m ∈ s.net → m.Carries key version → Around s key version
  | active {i : Nat} {op : Op α} {w : Write α} : s.ops[i]? = some op → op.key = key →
      op.write = some w → w.Active → w.version = version → Around s key version

-- The version is on its way to some replica, or may be sent to one again.
inductive Coming (s : State α) (key : Key) (version : Version α) : Prop
  | hinted : version ∈ (s.node h).hintStore.pending t key → Coming s key version
  | sent {m : Message α} : m ∈ s.net → m.Carries key version → Coming s key version
  | active {i : Nat} {op : Op α} {w : Write α} : s.ops[i]? = some op → op.key = key →
      op.write = some w → w.Active → w.version = version → Coming s key version

theorem Coming.around (c : Coming s k v) : Around s k v := by
  cases c
  case hinted hv             => exact .hinted hv
  case sent hm hc            => exact .sent hm hc
  case active ho hk hw ha hv => exact .active ho hk hw ha hv

-- All keys which have been used are received as they are.
structure CleanState (s : State α) : Prop where
  ops     : ∀ {i : Nat} {op : Op α}, s.ops[i]? = some op → Clean op.key
  deletes : ∀ {i : Nat} {d : DeleteOp α}, s.deletes[i]? = some d → Clean d.key
  hints   : v ∈ (s.node h).hintStore.pending t k → Clean k
  put     : .put i r key v ∈ s.net →
    ∃ (op : Op α) (w : Write α), s.ops[i]? = some op ∧ op.write = some w ∧ key = some op.key ∧
      v = w.version
  delete  : .delete i r key ∈ s.net →
    ∃ d : DeleteOp α, s.deletes[i]? = some d ∧ key = some d.key
  hint    : .hint h t key v ∈ s.net → ∃ k, Clean k ∧ key = some k
  flush   : .flush h t hintKey key v ∈ s.net → Clean hintKey ∧ key = some hintKey

theorem CleanState.initial : CleanState (State.initial : State α) where
  ops h     := by simp [State.initial] at h
  deletes h := by simp [State.initial] at h
  hints h   := by simp [Node.empty] at h
  put h     := by simp [State.initial] at h
  delete h  := by simp [State.initial] at h
  hint h    := by simp [State.initial] at h
  flush h   := by simp [State.initial] at h

theorem mem_net_of_delivered (h : s.delivered l = some m) : m ∈ s.net := by
  cases l <;> simp only [State.delivered, reduceCtorEq] at h
  exact List.mem_of_getElem? h

theorem CleanState.step (c : CleanState s) (hl : l.CleanKey) (h : DynamoKV.step cfg s l = some s') :
    CleanState s' := by
  have ops : ∀ {i : Nat} {op : Op α}, s'.ops[i]? = some op → Clean op.key := by
    intro i op ho
    rcases opStep_or_started h ho with ⟨op₀, ho₀, e⟩ | hs
    · exact e.key ▸ c.ops ho₀
    · exact (hs.label ▸ hl : Label.CleanKey (.invoke op.coord op.key op.request))
  have deletes : ∀ {i : Nat} {d : DeleteOp α}, s'.deletes[i]? = some d → Clean d.key := by
    intro i d hd
    rcases deleteStep_or_started h hd with ⟨d₀, hd₀, e⟩ | hs
    · exact e.key ▸ c.deletes hd₀
    · exact (hs.label ▸ hl : Label.CleanKey (α := α) (.invokeDelete d.coord d.key))
  refine ⟨ops, deletes, ?hints, ?put, ?delete, ?hint, ?flush⟩
  case hints =>
    intro v g t k hv
    rcases pending_step h hv with hv | ⟨i, op, w, hs, rfl, _⟩ | hd
    · exact c.hints hv
    · exact ops hs.mem
    · have ⟨k', hk, he⟩ := c.hint <| mem_net_of_delivered hd
      exact Option.some.inj he ▸ hk
  case put =>
    intro i r key v hm
    rcases net_step h hm with hm | hs
    · have ⟨op, w, ho, hw, hk, hv⟩ := c.put hm
      have ⟨op', ho', e⟩ := exists_opStep h ho
      have ⟨w', hw', ew⟩ := e.write' hw
      exact ⟨op', w', ho', hw', e.key ▸ hk, ew.version ▸ hv⟩
    · cases hs
      case put op w hs _ => exact ⟨op, w, hs.mem, hs.write, (ops hs.mem).internalKeys .., rfl⟩
  case delete =>
    intro i r key hm
    rcases net_step h hm with hm | hs
    · have ⟨d, hd, hk⟩ := c.delete hm
      have ⟨d', hd', e⟩ := exists_deleteStep h hd
      exact ⟨d', hd', e.key ▸ hk⟩
    · cases hs
      case delete d hd => exact ⟨d, hd, (deletes hd).internalKeys ..⟩
  case hint =>
    intro g t key v hm
    rcases net_step h hm with hm | hs
    · exact c.hint hm
    · cases hs
      case hint op w hs => exact ⟨op.key, ops hs.mem, (ops hs.mem).internalHints ..⟩
  case flush =>
    intro g t hintKey key v hm
    rcases net_step h hm with hm | hs
    · exact c.flush hm
    · cases hs
      case flush hv => exact ⟨c.hints hv, (c.hints hv).internalKeys ..⟩

section Around

-- The step makes the version of a put, namely of the one at `i`.
structure Minted (cfg : Config) (s : State α) (l : Label α) (s' : State α) (i : Nat) (op : Op α)
    (w : Write α) : Prop where
  before : s.ops[i]? = some op
  mints  : Mints cfg s l i op w
  after  : ∃ op', s'.ops[i]? = some op' ∧ op'.key = op.key ∧ op'.write = some w

theorem Sender.coming (hs : Sender cfg s l s' i op w) : Coming s op.key w.version ∨
    ∃ op₀, op₀.key = op.key ∧ Minted cfg s l s' i op₀ w := by
  rcases hs.active with ⟨op₀, ho, hk, hm⟩ | ⟨op₀, w₀, ho, hk, hw, hv, ha⟩
  · exact .inr ⟨op₀, hk, ho, hm, op, hs.mem, hk.symm, hs.write⟩
  · exact .inl <| .active ho hk hw ha hv

theorem Message.mem_store {message : Message α} (h : v ∈ message.store r k vs) :
    v ∈ vs ∨ message.Carries k v := by
  unfold Message.store at h
  split at h
  case h_1 | h_2 =>
    split at h
    case isFalse => exact .inl h
    case isTrue hk =>
      exact (mem_reconcile h).imp_right fun he => ⟨hk.right, he.symm⟩
  case h_3 =>
    split at h
    case isTrue  => simp at h
    case isFalse => exact .inl h
  case h_4 => exact .inl h

theorem coming_of_stored (h : step cfg s l = some s') (hv : v ∈ (s'.node r).getLocal k) :
    v ∈ (s.node r).getLocal k ∨ Coming s k v := by
  rw [getLocal_step h] at hv
  cases hd : s.delivered l
  case none   => rw [hd] at hv; exact .inl hv
  case some m =>
    rw [hd] at hv
    exact (m.mem_store hv).imp_right fun hc => .sent (mem_net_of_delivered hd) hc

-- A version either was coming before a step or is made by it. Stored versions are not sent again.
theorem Coming.of_step (c : CleanState s) (c' : CleanState s') (h : step cfg s l = some s')
    (hv : Coming s' k v) : Coming s k v ∨
      ∃ i op w, Minted cfg s l s' i op w ∧ op.key = k ∧ w.version = v := by
  have sender : ∀ {i op w}, Sender cfg s l s' i op w → op.key = k → w.version = v →
      Coming s k v ∨ ∃ i op w, Minted cfg s l s' i op w ∧ op.key = k ∧ w.version = v := by
    rintro i op w hs rfl rfl
    exact hs.coming.imp_right fun ⟨op₀, hk, hm⟩ => ⟨i, op₀, w, hm, hk, rfl⟩
  cases hv
  case hinted hv =>
    rcases pending_step h hv with hv | ⟨i, op, w, hs, hk, hw⟩ | hd
    · exact .inl <| .hinted hv
    · exact sender hs hk hw
    · exact .inl <| .sent (mem_net_of_delivered hd) ⟨rfl, rfl⟩
  case sent m hm hc =>
    rcases net_step h hm with hm | hs
    · exact .inl <| .sent hm hc
    · cases hs
      case put i op w r hs _ =>
        rw [(c'.ops hs.mem).internalKeys] at hc
        exact sender hs hc.left hc.right
      case hint i op w g t hs =>
        rw [(c'.ops hs.mem).internalHints] at hc
        exact sender hs hc.left hc.right
      case flush k' hv =>
        rw [(c.hints hv).internalKeys] at hc
        obtain ⟨rfl, rfl⟩ := hc
        exact .inl <| .hinted hv
      case delete  => exact hc.elim
      case flushed => exact hc.elim
  case active i op w ho hk hw ha hv =>
    rcases opStep_or_started h ho with ⟨op₀, ho₀, e⟩ | hs
    · rcases e.write_of hw with ⟨w₀, hw₀, ew⟩ | hm
      · have ha₀ : w₀.Active := by
          have := ew.call.completed
          rw [Write.Active, ew.call.prefs] at ha
          exact this.trans_lt ha
        exact .inl <| .active ho₀ (e.key ▸ hk) hw₀ ha₀ (ew.version ▸ hv)
      · exact .inr ⟨i, op₀, w, ⟨ho₀, hm, op, ho, e.key, hw⟩, e.key ▸ hk, hv⟩
    · simp [hs.write] at hw

theorem Around.of_step (c : CleanState s) (c' : CleanState s') (h : step cfg s l = some s')
    (a : Around s' k v) : Around s k v ∨
      ∃ i op w, Minted cfg s l s' i op w ∧ op.key = k ∧ w.version = v := by
  have coming (hv : Coming s' k v) := (hv.of_step c c' h).imp_left (·.around)
  cases a
  case stored hv             => exact .inl <| (coming_of_stored h hv).elim .stored (·.around)
  case hinted hv             => exact coming <| .hinted hv
  case sent hm hc            => exact coming <| .sent hm hc
  case active ho hk hw ha hv => exact coming <| .active ho hk hw ha hv

end Around
end DynamoKV

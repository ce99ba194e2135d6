import DynamoKV.Execution.Step
import DynamoKV.Lib.Log

-- What one step can do to the operations, to the replicas and to the messages in flight.
namespace DynamoKV

-- What a step can make of an operation which has been started before.
inductive OpStep {α : Type} (cfg : Config) (s : State α) : Label α → Nat → Op α → Op α → Prop
  | idle : OpStep cfg s l i op op
  | read : r ∈ op.prefs →
      OpStep cfg s (.read i r) i op (op.handleRead r <| s.answer cfg op.coord r op.key)
  | readDone : op.read.Completes r ok → OpStep cfg s (.readDone i r ok) i op (op.completeRead r ok)
  | getReturn : ¬op.request.isPut → op.ReadFinished cfg →
      OpStep cfg s (.getReturn i) i op
        (op.conclude s.time <| op.mergedRead cfg >>= getResponse op.key)
  | putFail : op.request = .put value → op.write = none → op.ReadFinished cfg →
      op.mergedRead cfg = .error e →
      OpStep cfg s (.putWrite i down) i op (op.conclude s.time <| .error e)
  | putWrite : op.request = .put value → op.write = none → op.ReadFinished cfg → op.coord ∉ down →
      op.mergedRead cfg = .ok merged →
      OpStep cfg s (.putWrite i down) i op
        { op with write := some <| op.startWrite cfg down merged value }
  | writeDone : op.write = some w → w.call.Completes r ok →
      OpStep cfg s (.writeDone i r ok) i op (op.completeWrite r ok)
  | putReturn : op.write = some w → op.WriteFinished cfg w →
      OpStep cfg s (.putReturn i) i op (op.conclude s.time <| op.writeResponse cfg w)
  | deliver : s.net[m]? = some (.put i r (some key) v) →
      OpStep cfg s (.deliver m again) i op (op.handleWrite r)

-- What an operation looks like at its start.
structure Started {α : Type} (cfg : Config) (s : State α) (l : Label α) (i : Nat) (op : Op α) :
    Prop where
  label   : l = .invoke op.coord op.key op.request
  index   : i = s.ops.length
  time    : op.started = s.time
  read    : ∃ prefs, cfg.preferenceList op.key = some prefs ∧ op.read = .submit prefs
  write   : op.write = none
  outcome : op.outcome = none

-- The message which a step takes off the net.
def State.taken {α : Type} (s : State α) : Label α → Option (Message α)
  | .deliver m _ | .lose m => s.net[m]?
  | _                      => none

-- What a step can make of the replicas and of the messages in flight. The operations do not matter
-- here, except where messages are sent for them.
inductive NextStep {α : Type} (cfg : Config) (s : State α) : Label α → State α → Prop
  | idle : s.taken l = none → NextStep cfg s l { s with ops, deletes }
  | putWrite : s.ops[i]? = some op → op.write.isNone ∧ op.ReadFinished cfg ∧ op.coord ∉ down →
      op.request = .put value → op.mergedRead cfg = .ok merged →
      NextStep cfg s (.putWrite i down) (s.sendWrites cfg i op
        (op.startWrite cfg down merged value) (op.prefs.filter (· ∈ down)))
  | hint : s.ops[i]? = some op → op.write = some w → w.call.Completes r ok →
      w.hintHolder = some holder → ok = false → r ≠ holder →
      NextStep cfg s (.writeDone i r ok) ((s.modifyOp i (·.completeWrite r ok)).deliverHint cfg
        op.coord holder r op.key w.version)
  | invokeDelete : cfg.preferenceList k = some prefs →
      NextStep cfg s (.invokeDelete c k) ((s.addDelete <| .submit c k s.time prefs).send <|
        prefs.map fun dest =>
          .delete s.deletes.length dest (cfg.address internalKeys c dest k))
  | deliver : s.net[m]? = some message →
      NextStep cfg s (.deliver m again)
        ({ s with net := if again then s.net else s.net.eraseIdx m }.handle message)
  | lose : m < s.net.length → NextStep cfg s (.lose m) { s with net := s.net.eraseIdx m }
  | flush : t ∈ cfg.clusterNodes ∧ t ≠ h →
      NextStep cfg s (.flush h t) (s.send <| ((s.node h).hintStore.pendingFor t).flatMap
        fun (key, versions) => versions.map (.flush h t key (cfg.address internalKeys h t key) ·))

variable {α : Type} {cfg : Config} {s s' : State α} {l : Label α}

namespace State

section Inversion

-- Each step function yields a state only if its guards hold.
theorem invoke_eq_some : s.invoke cfg c k q = some s' ↔ ∃ prefs, cfg.preferenceList k = some prefs ∧
    (s.addOp <| .submit c k q s.time prefs) = s' := by
  simp [invoke, Option.bind_eq_some_iff]

theorem read_eq_some : s.read cfg i r = some s' ↔ ∃ op, s.ops[i]? = some op ∧ r ∈ op.prefs ∧
    s.modifyOp i (·.handleRead r <| s.answer cfg op.coord r op.key) = s' := by
  simp [read, Option.bind_eq_some_iff, guard]

theorem readDone_eq_some : s.readDone i r ok = some s' ↔ ∃ op, s.ops[i]? = some op ∧
    op.read.Completes r ok ∧ s.modifyOp i (·.completeRead r ok) = s' := by
  simp [readDone, Option.bind_eq_some_iff, guard]

theorem getReturn_eq_some : s.getReturn cfg i = some s' ↔ ∃ op, s.ops[i]? = some op ∧
    (¬op.request.isPut ∧ op.ReadFinished cfg) ∧
    s.modifyOp i (·.conclude s.time <| op.mergedRead cfg >>= getResponse op.key) = s' := by
  simp [getReturn, Option.bind_eq_some_iff, guard]

theorem putWrite_eq_some : s.putWrite cfg i down = some s' ↔ ∃ op value, s.ops[i]? = some op ∧
    (op.write.isNone ∧ op.ReadFinished cfg ∧ op.coord ∉ down) ∧ op.request = .put value ∧
    ((∃ e, op.mergedRead cfg = .error e ∧
      s.modifyOp i (·.conclude s.time <| .error e) = s') ∨
    (∃ merged, op.mergedRead cfg = .ok merged ∧
      s.sendWrites cfg i op (op.startWrite cfg down merged value)
        (op.prefs.filter (· ∈ down)) = s')) := by
  simp only [putWrite, Option.bind_eq_bind, Option.bind_eq_some_iff]
  constructor
  case mp =>
    intro ⟨op, ho, _, hg, h⟩
    have hg : op.write.isNone ∧ op.ReadFinished cfg ∧ op.coord ∉ down := by
      simpa [guard] using hg
    cases hq : op.request
    case get       => simp [hq] at h
    case put value =>
      cases hm : op.mergedRead cfg
      case error e   => exact ⟨op, value, ho, hg, hq, .inl ⟨e, hm, by simpa [hq, hm] using h⟩⟩
      case ok merged => exact ⟨op, value, ho, hg, hq, .inr ⟨merged, hm, by simpa [hq, hm] using h⟩⟩
  case mpr =>
    intro ⟨op, value, ho, hg, hq, h⟩
    refine ⟨op, ho, (), by simp [guard, hg], ?_⟩
    rcases h with ⟨e, hm, h⟩ | ⟨merged, hm, h⟩ <;> simp [hq, hm, h]

theorem writeDone_eq_some (h : s.writeDone cfg i r ok = some s') : ∃ op w, s.ops[i]? = some op ∧
    op.write = some w ∧ w.call.Completes r ok ∧
    (s' = s.modifyOp i (·.completeWrite r ok) ∨ ∃ holder, w.hintHolder = some holder ∧
      ok = false ∧ r ≠ holder ∧ s' =
        (s.modifyOp i (·.completeWrite r ok)).deliverHint cfg op.coord holder r op.key
          w.version) := by
  simp only [writeDone, Option.bind_eq_bind, Option.bind_eq_some_iff] at h
  have ⟨op, ho, w, hw, _, hg, h⟩ := h
  refine ⟨op, w, ho, hw, by simpa [guard] using hg, ?_⟩
  have h := (Option.some.inj h).symm
  split at h
  case h_1           => exact .inl h
  case h_2 holder hh =>
    split at h
    case isTrue hf => exact .inr ⟨holder, hh, hf.left, hf.right, h⟩
    case isFalse   => exact .inl h

theorem putReturn_eq_some : s.putReturn cfg i = some s' ↔ ∃ op w, s.ops[i]? = some op ∧
    op.write = some w ∧ op.WriteFinished cfg w ∧
    s.modifyOp i (·.conclude s.time <| op.writeResponse cfg w) = s' := by
  simp [putReturn, Option.bind_eq_some_iff, guard]

theorem invokeDelete_eq_some : s.invokeDelete cfg c k = some s' ↔
    ∃ prefs, cfg.preferenceList k = some prefs ∧
    ((s.addDelete <| .submit c k s.time prefs).send <| prefs.map
      fun dest => .delete s.deletes.length dest (cfg.address internalKeys c dest k)) = s' := by
  simp [invokeDelete, Option.bind_eq_some_iff]

theorem deleteDone_eq_some : s.deleteDone i r ok = some s' ↔ ∃ d, s.deletes[i]? = some d ∧
    d.call.Completes r ok ∧ s.modifyDelete i (·.complete r ok) = s' := by
  simp [deleteDone, Option.bind_eq_some_iff, guard]

theorem deleteReturn_eq_some : s.deleteReturn cfg i = some s' ↔ ∃ d, s.deletes[i]? = some d ∧
    d.Finished cfg ∧ s.modifyDelete i (·.conclude s.time <| d.response cfg) = s' := by
  simp [deleteReturn, Option.bind_eq_some_iff, guard]

theorem deliver_eq_some : s.deliver m again = some s' ↔ ∃ message, s.net[m]? = some message ∧
    { s with net := if again then s.net else s.net.eraseIdx m }.handle message = s' := by
  simp [deliver, Option.bind_eq_some_iff]

theorem lose_eq_some : s.lose m = some s' ↔
    m < s.net.length ∧ { s with net := s.net.eraseIdx m } = s' := by
  simp [lose, Option.bind_eq_some_iff, guard]

theorem flush_eq_some : s.flush cfg h t = some s' ↔ (t ∈ cfg.clusterNodes ∧ t ≠ h) ∧
    (s.send <| ((s.node h).hintStore.pendingFor t).flatMap fun (key, versions) =>
      versions.map (.flush h t key (cfg.address internalKeys h t key) ·)) = s' := by
  simp [flush, Option.bind_eq_some_iff, guard]

theorem step_eq_some : step cfg s l = some s' ↔ ∃ s₁, s.next cfg l = some s₁ ∧ s₁.tick = s' := by
  simp [step]

theorem nextStep (h : s.next cfg l = some s') : NextStep cfg s l s' := by
  cases l <;> simp only [next] at h
  case invoke       => obtain ⟨_, _, rfl⟩ := invoke_eq_some.mp h; exact .idle rfl
  case read         => obtain ⟨_, _, _, rfl⟩ := read_eq_some.mp h; exact .idle rfl
  case readDone     => obtain ⟨_, _, _, rfl⟩ := readDone_eq_some.mp h; exact .idle rfl
  case getReturn    => obtain ⟨_, _, _, rfl⟩ := getReturn_eq_some.mp h; exact .idle rfl
  case putReturn    => obtain ⟨_, _, _, _, _, rfl⟩ := putReturn_eq_some.mp h; exact .idle rfl
  case deleteDone   => obtain ⟨_, _, _, rfl⟩ := deleteDone_eq_some.mp h; exact .idle rfl
  case deleteReturn => obtain ⟨_, _, _, rfl⟩ := deleteReturn_eq_some.mp h; exact .idle rfl
  case invokeDelete => obtain ⟨_, hp, rfl⟩ := invokeDelete_eq_some.mp h; exact .invokeDelete hp
  case deliver      => obtain ⟨_, hm, rfl⟩ := deliver_eq_some.mp h; exact .deliver hm
  case lose         => obtain ⟨hm, rfl⟩ := lose_eq_some.mp h; exact .lose hm
  case flush        => obtain ⟨ht, rfl⟩ := flush_eq_some.mp h; exact .flush ht
  case putWrite     =>
    obtain ⟨_, _, ho, hg, hq, ⟨_, _, rfl⟩ | ⟨_, hm, rfl⟩⟩ := putWrite_eq_some.mp h
    · exact .idle rfl
    · exact .putWrite ho hg hq hm
  case writeDone    =>
    obtain ⟨_, _, ho, hw, hc, rfl | ⟨_, hh, hk, hr, rfl⟩⟩ := writeDone_eq_some h
    · exact .idle rfl
    · exact .hint ho hw hc hh hk hr

end Inversion

section Time

@[simp]
theorem time_deliverHint : (s.deliverHint cfg c h t k v).time = s.time := by
  unfold deliverHint
  split <;> rfl

@[simp]
theorem time_foldl_deliverHint (ts : List NodeId) :
    (ts.foldl (deliverHint · cfg c h · k v) s).time = s.time := by
  induction ts generalizing s
  case nil         => rfl
  case cons t _ hi => simp [hi]

theorem time_sendWrites (i : Nat) : (s.sendWrites cfg i op w ts).time = s.time := by
  simp only [sendWrites, send, modifyOp]
  split <;> simp

theorem time_handle (message : Message α) : (s.handle message).time = s.time := by
  match message with
  | .put _ _ none _ | .delete _ _ none | .delete _ _ (some _) | .hint _ _ none _
  | .put _ _ (some _) _ | .hint _ _ (some _) _ | .flush _ _ _ none _ | .flush _ _ _ (some _) _
  | .flushed _ _ _ => rfl

end Time

section Ops

@[simp]
theorem ops_modifyNode : (s.modifyNode r f).ops = s.ops :=
  rfl

@[simp]
theorem ops_modifyDelete : (s.modifyDelete i f).ops = s.ops :=
  rfl

@[simp]
theorem ops_addDelete : (s.addDelete d).ops = s.ops :=
  rfl

@[simp]
theorem ops_send : (s.send ms).ops = s.ops :=
  rfl

@[simp]
theorem ops_tick : s.tick.ops = s.ops :=
  rfl

@[simp]
theorem ops_deliverHint : (s.deliverHint cfg c h t k v).ops = s.ops := by
  unfold deliverHint
  split <;> rfl

@[simp]
theorem ops_foldl_deliverHint (ts : List NodeId) :
    (ts.foldl (deliverHint · cfg c h · k v) s).ops = s.ops := by
  induction ts generalizing s
  case nil         => rfl
  case cons t _ hi => simp [hi]

theorem ops_sendWrites :
    (s.sendWrites cfg i op w ts).ops = (s.modifyOp i ({ · with write := w })).ops := by
  simp only [sendWrites, ops_send]
  split
  case h_1 => rfl
  case h_2 => simp [modifyOp]

abbrev OpsStep (cfg : Config) (s : State α) (l : Label α) : List (Op α) → List (Op α) → Prop :=
  Log.Steps (OpStep cfg s l) (Started cfg s l)

theorem OpsStep.of_eq (h : s'.ops = s.ops) : OpsStep cfg s l s.ops s'.ops :=
  Log.Steps.of_eq (fun _ _ => .idle) h

theorem OpsStep.of_modifyOp {f : Op α → Op α} (h : s'.ops = (s.modifyOp i f).ops)
    (ho : s.ops[i]? = some op) (hf : OpStep cfg s l i op (f op)) : OpsStep cfg s l s.ops s'.ops :=
  .of_modify (fun _ _ => .idle) h fun _ ho' => Option.some.inj (ho.symm.trans ho') ▸ hf

theorem opsStep_handle {message : Message α} (hm : s.net[m]? = some message)
    (net : List (Message α)) :
    OpsStep cfg s (.deliver m again) s.ops ({ s with net }.handle message).ops := by
  match message with
  | .put i dest (some key) v => exact .of_modify (fun _ _ => .idle) rfl fun _ _ => .deliver hm
  | .put _ _ none _ | .delete _ _ none | .delete _ _ (some _) | .hint _ _ none _
  | .hint _ _ (some _) _ | .flush _ _ _ none _ | .flush _ _ _ (some _) _ | .flushed _ _ _ =>
    exact .of_eq rfl

end Ops
end State

open State in
theorem step_ops (h : step cfg s l = some s') : OpsStep cfg s l s.ops s'.ops := by
  rw [step_eq_some] at h
  obtain ⟨s₁, h, rfl⟩ := h
  cases l <;> simp only [next] at h
  case invoke c k q =>
    obtain ⟨prefs, hp, rfl⟩ := invoke_eq_some.mp h
    exact .append rfl ⟨rfl, rfl, rfl, ⟨prefs, hp, rfl⟩, rfl, rfl⟩
  case read i r =>
    obtain ⟨op, ho, hr, rfl⟩ := read_eq_some.mp h
    exact OpsStep.of_modifyOp rfl ho (.read hr)
  case readDone i r ok =>
    obtain ⟨op, ho, hc, rfl⟩ := readDone_eq_some.mp h
    exact OpsStep.of_modifyOp rfl ho (.readDone hc)
  case getReturn i =>
    obtain ⟨op, ho, ⟨hg, hf⟩, rfl⟩ := getReturn_eq_some.mp h
    exact OpsStep.of_modifyOp rfl ho (.getReturn hg hf)
  case putWrite i down =>
    obtain ⟨op, value, ho, ⟨hw, hf, hd⟩, hq, ⟨e, hm, rfl⟩ | ⟨merged, hm, rfl⟩⟩ :=
      putWrite_eq_some.mp h
    · exact OpsStep.of_modifyOp rfl ho (.putFail hq (by simpa using hw) hf hm)
    · exact OpsStep.of_modifyOp ops_sendWrites ho (.putWrite hq (by simpa using hw) hf hd hm)
  case writeDone i r ok =>
    have ⟨op, w, ho, hw, hc, h⟩ := writeDone_eq_some h
    have h : s₁.ops = (s.modifyOp i (·.completeWrite r ok)).ops := by
      rcases h with rfl | ⟨_, _, _, _, rfl⟩ <;> simp
    exact OpsStep.of_modifyOp h ho (.writeDone hw hc)
  case putReturn i =>
    obtain ⟨op, w, ho, hw, hf, rfl⟩ := putReturn_eq_some.mp h
    exact OpsStep.of_modifyOp rfl ho (.putReturn hw hf)
  case invokeDelete c k =>
    obtain ⟨_, _, rfl⟩ := invokeDelete_eq_some.mp h
    exact OpsStep.of_eq rfl
  case deleteDone i r ok =>
    obtain ⟨_, _, _, rfl⟩ := deleteDone_eq_some.mp h
    exact OpsStep.of_eq rfl
  case deleteReturn i =>
    obtain ⟨_, _, _, rfl⟩ := deleteReturn_eq_some.mp h
    exact OpsStep.of_eq rfl
  case deliver m again =>
    obtain ⟨message, hm, rfl⟩ := deliver_eq_some.mp h
    exact opsStep_handle hm _
  case lose m =>
    obtain ⟨_, rfl⟩ := lose_eq_some.mp h
    exact OpsStep.of_eq rfl
  case flush holder target =>
    obtain ⟨_, rfl⟩ := flush_eq_some.mp h
    exact OpsStep.of_eq rfl

theorem time_step (h : step cfg s l = some s') : s'.time = s.time + 1 := by
  obtain ⟨s₁, hn, rfl⟩ := State.step_eq_some.mp h
  suffices hs : s₁.time = s.time from congrArg (· + 1) hs
  cases State.nextStep hn
  case putWrite => exact State.time_sendWrites _
  case hint     => exact State.time_deliverHint
  case deliver  => exact State.time_handle _
  case idle | invokeDelete | lose | flush => rfl

end DynamoKV

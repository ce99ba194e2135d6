import DynamoKV.Execution.Handoff
import DynamoKV.Execution.Threads
import DynamoKV.Objects.Ring.PreferenceList

-- What becomes of each replica of a put. It gets the version or somebody else gets a hint for it.
namespace DynamoKV

open Antichain

variable {α : Type} {cfg : Config} {s s' : State α} {l : Label α} {k : Key}

-- A call of `_deliver_hint` by the coordinator of the operation `op`.
structure HintCall (α : Type) where
  op      : Nat
  coord   : NodeId
  holder  : NodeId
  target  : NodeId
  key     : Key
  version : Version α

-- The calls for some targets, if there is a holder.
def Op.hintCalls (i : Nat) (op : Op α) (w : Write α) (targets : List NodeId) : List (HintCall α) :=
  match w.hintHolder with
  | none        => []
  | some holder => targets.map (⟨i, op.coord, holder, ·, op.key, w.version⟩)

namespace HintCall

def deliver (cfg : Config) (s : State α) (c : HintCall α) : State α :=
  s.deliverHint cfg c.coord c.holder c.target c.key c.version

-- The key under which the holder gets the hint.
def received (cfg : Config) (c : HintCall α) : Option Key :=
  cfg.address internalHints c.coord c.holder c.key

def IsFor (i : Nat) (target : NodeId) (c : HintCall α) : Prop :=
  c.op = i ∧ c.target = target

instance : DecidablePred (IsFor i t : HintCall α → Prop) :=
  fun _ => inferInstanceAs (Decidable (_ ∧ _))

end HintCall

-- The calls in a step, as made by `put` for the nodes which are presumed down and by a replica
-- write that fails.
def State.hintCalls (cfg : Config) (s : State α) : Label α → List (HintCall α)
  | .putWrite i down =>
    match s.ops[i]? with
    | none    => []
    | some op =>
      match op.request, op.mergedRead cfg with
      | .put value, .ok merged =>
        op.hintCalls i (op.startWrite cfg down merged value) (op.prefs.filter (· ∈ down))
      | _, _ => []
  | .writeDone i r ok =>
    match s.ops[i]? with
    | none    => []
    | some op =>
      match op.write with
      | none   => []
      | some w => if ok = false ∧ w.hintHolder ≠ some r then op.hintCalls i w [r] else []
  | _ => []

-- The operation for which a step may make calls.
def Label.handsOver : Label α → Option Nat
  | .putWrite i _ | .writeDone i _ _ => some i
  | _                                => none

-- The cluster with a record of all these calls.
abbrev recordedCluster (cfg : Config) (α : Type) :
    TransitionSystem (State α × List (HintCall α)) (Label α) :=
  (cluster cfg α).recorded (State.hintCalls cfg)

theorem recordedCluster_init : (recordedCluster cfg α).init (.initial, []) :=
  ⟨rfl, rfl⟩

section Record

def Message.IsHint : Message α → Prop
  | .hint _ _ _ _ => True
  | _             => False

instance : DecidablePred (Message.IsHint : Message α → Prop)
  | .hint _ _ _ _ => inferInstanceAs (Decidable True)
  | .put _ _ _ _ | .delete _ _ _ | .flush _ _ _ _ _ | .flushed _ _ _ =>
    inferInstanceAs (Decidable False)

structure SameHints (s s' : State α) : Prop where
  held : ∀ r, (s'.node r).hintStore = (s.node r).hintStore
  sent : s'.net.filter (·.IsHint) = s.net.filter (·.IsHint)

theorem SameHints.refl (s : State α) : SameHints s s :=
  ⟨fun _ => rfl, rfl⟩

theorem foldl_deliver_hintCalls {op : Op α} {w : Write α} (i : Nat) (ts : List NodeId) :
    (op.hintCalls i w ts).foldl (HintCall.deliver cfg) s = match w.hintHolder with
      | none        => s
      | some holder => ts.foldl (·.deliverHint cfg op.coord holder · op.key w.version) s := by
  unfold Op.hintCalls
  split
  case h_1 => rfl
  case h_2 => rw [List.foldl_map]; rfl

theorem SameHints.send (h : SameHints s s') {ms : List (Message α)}
    (hm : ∀ m ∈ ms, ¬m.IsHint) : SameHints s (s'.send ms) := by
  refine ⟨h.held, ?_⟩
  have hn : ms.filter (·.IsHint) = [] := List.filter_eq_nil_iff.mpr (by simpa using hm)
  rw [State.send, List.filter_append, hn, List.append_nil, h.sent]

theorem SameHints.deliverHint (h : SameHints s s') :
    SameHints (s.deliverHint cfg c g t k v) (s'.deliverHint cfg c g t k v) := by
  unfold State.deliverHint
  split
  case isTrue =>
    refine ⟨fun r => ?_, h.sent⟩
    simp only [State.node_modifyNode]
    split <;> simp [h.held]
  case isFalse =>
    refine ⟨h.held, ?_⟩
    simp only [State.send, List.filter_append, h.sent]

theorem sameHints_sendWrites (i : Nat) (op : Op α) (w : Write α) (ts : List NodeId) :
    SameHints ((op.hintCalls i w ts).foldl (HintCall.deliver cfg) s)
      (s.sendWrites cfg i op w ts) := by
  rw [foldl_deliver_hintCalls, State.sendWrites]
  apply SameHints.send
  · exact ⟨fun _ => rfl, rfl⟩
  · simp [Message.IsHint]

theorem sameHints_writeDone (h : s.writeDone cfg i r ok = some s') :
    SameHints ((s.hintCalls cfg (.writeDone i r ok)).foldl (HintCall.deliver cfg) s) s' := by
  simp only [State.writeDone, Option.bind_eq_bind, Option.bind_eq_some_iff] at h
  obtain ⟨op, ho, w, hw, _, _, h⟩ := h
  cases Option.some.inj h
  have hm : SameHints s (s.modifyOp i (·.completeWrite r ok)) := ⟨fun _ => rfl, rfl⟩
  simp only [State.hintCalls, ho, hw]
  cases hh : w.hintHolder
  case none   => simpa [Op.hintCalls, hh] using hm
  case some holder =>
    simp only [ne_eq, Option.some_inj, eq_comm (a := holder)]
    split
    case isTrue  => simpa [foldl_deliver_hintCalls, hh] using hm.deliverHint
    case isFalse => exact hm

theorem Op.op_of_mem_hintCalls {op : Op α} {c : HintCall α} (h : c ∈ op.hintCalls i w ts) :
    c.op = i := by
  unfold hintCalls at h
  split at h
  case h_1 => contradiction
  case h_2 => obtain ⟨_, _, rfl⟩ := List.mem_map.mp h; rfl

theorem State.op_of_mem_hintCalls {c : HintCall α} (h : c ∈ s.hintCalls cfg l) :
    l.handsOver = some c.op := by
  unfold hintCalls at h
  repeat' split at h
  all_goals
    first
    | contradiction
    | exact congrArg some (Op.op_of_mem_hintCalls h).symm

theorem State.hintCalls_eq_nil (hl : l.handsOver = none) : s.hintCalls cfg l = [] := by
  refine List.eq_nil_iff_forall_not_mem.mpr fun c hc => ?_
  cases hl.symm.trans <| op_of_mem_hintCalls hc

theorem sameHints_of_handsOver_eq_none (h : s.next cfg l = some s') (ht : s.taken l = none)
    (hl : l.handsOver = none) : SameHints s s' := by
  cases State.nextStep h
  case idle            => exact ⟨fun _ => rfl, rfl⟩
  case putWrite | hint => contradiction
  case deliver hm      => cases hm.symm.trans ht
  case lose hm         => cases (List.getElem?_eq_getElem hm).symm.trans ht
  case invokeDelete    =>
    apply SameHints.send
    · exact ⟨fun _ => rfl, rfl⟩
    · simp [Message.IsHint]
  case flush           =>
    refine .send (.refl s) fun m hm => ?_
    obtain ⟨_, _, hm⟩ := List.mem_flatMap.mp hm
    obtain ⟨_, _, rfl⟩ := List.mem_map.mp hm
    exact id

open State in
-- Apart from the messages that are delivered or lost, a step does with hints what its calls do.
theorem sameHints_next (h : s.next cfg l = some s') (ht : s.taken l = none) :
    SameHints ((s.hintCalls cfg l).foldl (HintCall.deliver cfg) s) s' := by
  cases hl : l.handsOver
  case none =>
    rw [hintCalls_eq_nil hl]
    exact sameHints_of_handsOver_eq_none h ht hl
  case some =>
    cases l <;> try contradiction
    case writeDone => exact sameHints_writeDone h
    case putWrite  =>
      obtain ⟨op, value, ho, _, hq, ⟨e, hm, rfl⟩ | ⟨merged, hm, rfl⟩⟩ := putWrite_eq_some.mp h
      · simp only [hintCalls, ho, hq, hm, List.foldl_nil]
        exact ⟨fun _ => rfl, rfl⟩
      · simp only [hintCalls, ho, hq, hm]
        exact sameHints_sendWrites ..

-- The record is of all that a step does with hints, apart from the messages delivered or lost.
theorem recordedCluster_step {x y : State α × List (HintCall α)} (ht : x.1.taken l = none)
    (h : (recordedCluster cfg α).step x l = some y) : ∃ calls, y.2 = x.2 ++ calls ∧
      SameHints (calls.foldl (HintCall.deliver cfg) x.1) y.1 := by
  obtain ⟨h, hl⟩ := TransitionSystem.recorded_step.mp h
  obtain ⟨s₁, hn, hs⟩ := State.step_eq_some.mp h
  have hh := sameHints_next hn ht
  exact ⟨_, hl, hs ▸ ⟨hh.held, hh.sent⟩⟩

end Record

section Invariant

-- What is known of an operation, and of its replica writes once it has started them.
structure Op.Placed (cfg : Config) (op : Op α) : Prop where
  prefs    : cfg.preferenceList op.key = some op.prefs
  put      : ∀ w, op.write = some w → op.request.isPut
  holder   : ∀ w, op.write = some w → w.hintHolder = cfg.hintHolder op.key op.prefs
  writes   : ∀ w, op.write = some w → w.call.prefs ⊆ op.prefs
  response : ∀ w o, op.write = some w → op.outcome = some o →
    cfg.writeThreshold op.prefs ≤ w.call.acked.length ∧ o.response = .ok w.version ∨
      o.response = .error (.writeQuorum op.key)

namespace Op.Placed

variable {op op' : Op α}

theorem of_started (h : Started cfg s l i op) : op.Placed cfg := by
  obtain ⟨prefs, hp, hr⟩ := h.read
  refine ⟨by simpa [Op.prefs, hr, QuorumCall.submit] using hp, ?_, ?_, ?_, ?_⟩ <;>
    simp [h.write]

theorem writeResponse (op : Op α) (w : Write α) :
    cfg.writeThreshold op.prefs ≤ w.call.acked.length ∧ op.writeResponse cfg w = .ok w.version ∨
      op.writeResponse cfg w = .error (.writeQuorum op.key) := by
  unfold Op.writeResponse
  split
  case isTrue h  => exact .inl ⟨h.trans QuorumCall.length_successes_le, rfl⟩
  case isFalse   => exact .inr rfl

theorem step_response (p : op.Placed cfg) (e : OpStep cfg s l i op op') (w' : Write α)
    (o : Outcome α (Version α)) (hw : op'.write = some w') (ho : op'.outcome = some o) :
    cfg.writeThreshold op'.prefs ≤ w'.call.acked.length ∧ o.response = .ok w'.version ∨
      o.response = .error (.writeQuorum op'.key) := by
  rw [e.prefs, e.key]
  cases e
  case getReturn hg hf      => exact absurd (p.put w' hw) hg
  case putFail hn _ _       => cases hn.symm.trans hw
  case putWrite hf _ _      => cases (Option.isNone_iff_eq_none.mp hf.left).symm.trans ho
  case writeDone w r ok hc hw₀ =>
    cases (Op.write_completeWrite hw₀).symm.trans hw
    refine (p.response w o hw₀ ho).imp_left fun ⟨hl, hv⟩ => ⟨hl.trans ?_, hv⟩
    exact QuorumCall.acked_prefix_complete.length_le
  case putReturn w hw₀ hf =>
    cases hw₀.symm.trans hw
    cases ho
    exact writeResponse op w'
  case deliver r _ _ _ _ _ =>
    obtain ⟨w, hw₀, rfl⟩ := Option.map_eq_some_iff.mp hw
    simpa using p.response w o hw₀ ho
  all_goals exact p.response w' o hw ho

theorem step (p : op.Placed cfg) (e : OpStep cfg s l i op op') : op'.Placed cfg where
  prefs := by rw [e.key, e.prefs]; exact p.prefs
  put w hw := by
    rw [e.request]
    rcases e.write_of hw with ⟨w₀, hw, _⟩ | hm
    · exact p.put w₀ hw
    · obtain ⟨_, hq, _⟩ := hm.put
      rw [hq, Request.isPut]
  holder w hw := by
    rw [e.key, e.prefs]
    rcases e.write_of hw with ⟨w₀, hw, ew⟩ | hm
    · exact ew.hintHolder.trans <| p.holder w₀ hw
    · exact hm.holder
  writes w hw := by
    rw [e.prefs]
    rcases e.write_of hw with ⟨w₀, hw, ew⟩ | hm
    · exact ew.call.prefs ▸ p.writes w₀ hw
    · exact hm.prefs
  response := p.step_response e

end Op.Placed

-- The node does not get the version, as it is presumed down or its replica write has failed.
def Write.Missed (w : Write α) (r : NodeId) : Prop :=
  r ∉ w.call.prefs ∨ (r, none) ∈ w.call.completed

instance {w : Write α} : Decidable (w.Missed r) :=
  inferInstanceAs (Decidable (_ ∨ _))

-- The calls for a node which the operation has made if it makes one for each node that it misses.
def Op.owedCalls (i : Nat) (r : NodeId) (op : Op α) : List (HintCall α) :=
  match op.write with
  | none   => []
  | some w => if r ∈ op.prefs ∧ w.Missed r then op.hintCalls i w [r] else []

def State.owedCalls (s : State α) (i : Nat) (r : NodeId) : List (HintCall α) :=
  (s.ops[i]?).elim [] (·.owedCalls i r)

section Calls

variable {op op' : Op α} {w : Write α}

theorem Op.filter_hintCalls (i : Nat) (op : Op α) (w : Write α) (ts : List NodeId) (r : NodeId) :
    (op.hintCalls i w ts).filter (·.IsFor i r) = op.hintCalls i w (ts.filter (· = r)) := by
  unfold hintCalls
  split
  case h_1 => rfl
  case h_2 => simp [List.filter_map, Function.comp_def, HintCall.IsFor]

theorem Op.hintCalls_nil (i : Nat) (op : Op α) (w : Write α) : op.hintCalls i w [] = [] := by
  unfold hintCalls
  split <;> rfl

theorem OpStep.owedCalls (e : OpStep cfg s l i op op') (hl : l.handsOver ≠ some i) :
    op'.owedCalls i r = op.owedCalls i r := by
  cases e
  case putWrite  => exact absurd rfl hl
  case writeDone => exact absurd rfl hl
  case deliver   =>
    cases hw : op.write <;>
      simp [Op.owedCalls, Op.handleWrite, Op.prefs, Op.hintCalls, Write.Missed, hw]
  case read      => simp [Op.owedCalls, Op.handleRead, Op.prefs, Op.hintCalls]
  case readDone  => simp [Op.owedCalls, Op.completeRead, Op.prefs, Op.hintCalls]
  all_goals rfl

theorem State.filter_hintCalls_eq_nil (hl : l.handsOver ≠ some i) :
    (s.hintCalls cfg l).filter (·.IsFor i r) = [] := by
  refine List.filter_eq_nil_iff.mpr fun c hc hf => hl ?_
  rw [op_of_mem_hintCalls hc]
  exact congrArg some (of_decide_eq_true hf).left

theorem State.owedCalls_step_other (h : step cfg s l = some s') (hl : l.handsOver ≠ some i) :
    s'.owedCalls i r = s.owedCalls i r := by
  unfold State.owedCalls
  cases ho : s.ops[i]?
  case some op =>
    obtain ⟨op', ho', e⟩ := exists_opStep h ho
    rw [ho']
    exact e.owedCalls hl
  case none =>
    cases ho' : s'.ops[i]?
    case none     => rfl
    case some op' =>
      rcases opStep_or_started h ho' with ⟨op, hop, _⟩ | hs
      · cases ho.symm.trans hop
      · simp [Op.owedCalls, hs.write]

theorem Op.owedCalls_startWrite (hd : op.prefs.Nodup) (i : Nat) (r : NodeId) (down : List NodeId)
    (merged : List (Version α)) (value : α) :
    Op.owedCalls i r { op with write := some (op.startWrite cfg down merged value) } =
      (op.hintCalls i (op.startWrite cfg down merged value) (op.prefs.filter (· ∈ down))).filter
        (·.IsFor i r) := by
  have hm : r ∈ op.prefs ∧ (op.startWrite cfg down merged value).Missed r ↔
      r ∈ op.prefs.filter (· ∈ down) := by
    simp +contextual [Write.Missed, startWrite, QuorumCall.submit]
  rw [filter_hintCalls, List.filter_eq, (hd.filter _).count]
  by_cases hr : r ∈ op.prefs.filter (· ∈ down)
  case pos => rw [if_pos hr]; exact if_pos <| hm.mpr hr
  case neg => rw [if_neg hr]; exact (if_neg <| mt hm.mp hr).trans (hintCalls_nil ..).symm

theorem State.owedCalls_putWrite (h : step cfg s (.putWrite i down) = some s')
    (hd : ∀ op ∈ s.ops, op.prefs.Nodup) : s'.owedCalls i r = s.owedCalls i r ++
      (s.hintCalls cfg (.putWrite i down)).filter (·.IsFor i r) := by
  obtain ⟨s₁, hn, rfl⟩ := step_eq_some.mp h
  obtain ⟨op, value, ho, ⟨hw, _⟩, hq, ⟨e, hm, rfl⟩ | ⟨merged, hm, rfl⟩⟩ := putWrite_eq_some.mp hn
  · have hw := Option.isNone_iff_eq_none.mp hw
    simp [owedCalls, hintCalls, ho, hq, hm, modifyOp, Op.owedCalls, Op.conclude, hw]
  · have hn : s.owedCalls i r = [] := by
      simp [owedCalls, ho, Op.owedCalls, Option.isNone_iff_eq_none.mp hw]
    simp only [hn, hintCalls, ho, hq, hm, List.nil_append]
    rw [← Op.owedCalls_startWrite (hd op <| List.mem_of_getElem? ho)]
    simp [owedCalls, ops_sendWrites, modifyOp, ho]

theorem Write.missed_complete (hc : w.call.Completes t ok) :
    Write.Missed { w with call := w.call.complete t ok } r ↔ w.Missed r ∨ r = t ∧ ok = false := by
  simp only [Missed, QuorumCall.prefs_complete, hc.completed, List.mem_append, List.mem_singleton,
    Prod.mk.injEq, eq_comm (a := (none : Option Unit)), hc.result_eq_none, or_assoc]

theorem Op.Placed.hintHolder_ne (p : op.Placed cfg) (hw : op.write = some w) (hr : r ∈ op.prefs) :
    w.hintHolder ≠ some r := by
  intro hh
  obtain ⟨candidates, -, hf⟩ := Option.bind_eq_some_iff.mp <| (p.holder w hw).symm.trans hh
  exact absurd hr <| by simpa using List.find?_some hf

theorem Op.owedCalls_completeWrite (p : op.Placed cfg) (hw : op.write = some w)
    (hc : w.call.Completes t ok) (i : Nat) (r : NodeId) :
    (op.completeWrite t ok).owedCalls i r = op.owedCalls i r ++
      (if ok = false ∧ w.hintHolder ≠ some t then op.hintCalls i w [t] else []).filter
        (·.IsFor i r) := by
  have ho : (op.completeWrite t ok).owedCalls i r =
      if r ∈ op.prefs ∧ (w.Missed r ∨ r = t ∧ ok = false) then op.hintCalls i w [r] else [] := by
    simp only [owedCalls, write_completeWrite hw, Write.missed_complete hc]
    rfl
  rw [ho, owedCalls, hw]
  by_cases hr : r = t ∧ ok = false
  case pos =>
    obtain ⟨rfl, rfl⟩ := hr
    have hm : ¬w.Missed r := by
      rintro (h | h)
      · exact h hc.mem
      · exact hc.pending <| List.mem_map_of_mem h
    have hp := p.writes w hw hc.mem
    simp [filter_hintCalls, hm, hp, p.hintHolder_ne hw hp]
  case neg =>
    have hn : (if ok = false ∧ w.hintHolder ≠ some t then op.hintCalls i w [t] else []).filter
        (·.IsFor i r) = [] := by
      split
      case isFalse => rfl
      case isTrue h =>
        have hne : t ≠ r := fun e => hr ⟨e.symm, h.left⟩
        simp [filter_hintCalls, hne, hintCalls_nil]
    simp only [hn, hr, or_false, List.append_nil]

theorem State.owedCalls_writeDone (h : step cfg s (.writeDone i t ok) = some s')
    (hp : ∀ op ∈ s.ops, op.Placed cfg) : s'.owedCalls i r = s.owedCalls i r ++
      (s.hintCalls cfg (.writeDone i t ok)).filter (·.IsFor i r) := by
  obtain ⟨s₁, hn, rfl⟩ := step_eq_some.mp h
  obtain ⟨op, w, ho, hw, hc, hs⟩ := writeDone_eq_some hn
  have hs : s₁.ops = s.ops.modify i (·.completeWrite t ok) := by
    rcases hs with rfl | ⟨_, _, _, _, rfl⟩ <;> simp [modifyOp]
  simp only [hintCalls, ho, hw]
  have he := Op.owedCalls_completeWrite (hp op <| List.mem_of_getElem? ho) hw hc i r
  simpa [owedCalls, hs, ho] using he

theorem State.owedCalls_step (h : step cfg s l = some s') (hp : ∀ op ∈ s.ops, op.Placed cfg)
    (i : Nat) (r : NodeId) :
    s'.owedCalls i r = s.owedCalls i r ++ (s.hintCalls cfg l).filter (·.IsFor i r) := by
  by_cases hl : l.handsOver = some i
  case neg => rw [owedCalls_step_other h hl, filter_hintCalls_eq_nil hl, List.append_nil]
  case pos =>
    cases l <;> try contradiction
    case putWrite  =>
      cases hl
      refine owedCalls_putWrite h fun op ho => ?_
      exact HashRing.getPreferenceList_nodup (HashRing.built_ofNodes ..) (hp op ho).prefs
    case writeDone =>
      cases hl
      exact owedCalls_writeDone h hp

end Calls

-- What holds of the states of a cluster together with the record.
structure Recorded (cfg : Config) (s : State α) (log : List (HintCall α)) : Prop where
  clean  : CleanState s
  placed : ∀ op ∈ s.ops, op.Placed cfg
  stored : ∀ k, (∀ d ∈ s.deletes, d.key ≠ k) → ∀ p : Put s k, (r, ()) ∈ p.write.call.handled →
    Covers ((s.node r).getLocal k) p.version
  calls  : ∀ i r, log.filter (·.IsFor i r) = s.owedCalls i r

namespace Recorded

variable {log : List (HintCall α)}

theorem initial : Recorded cfg (State.initial : State α) [] where
  clean          := .initial
  placed op hop  := by simp [State.initial] at hop
  stored k _ p   := absurd p.mem (by simp [State.initial])
  calls i r      := rfl

theorem step (d : Recorded cfg s log) (hl : l.CleanKey) (h : DynamoKV.step cfg s l = some s') :
    Recorded cfg s' (log ++ s.hintCalls cfg l) where
  clean := d.clean.step hl h
  placed op' hop := by
    obtain ⟨i, ho'⟩ := List.getElem?_of_mem hop
    rcases opStep_or_started h ho' with ⟨op, ho, e⟩ | hs
    · exact (d.placed op <| List.mem_of_getElem? ho).step e
    · exact .of_started hs
  stored k hd p' hr := by
    have hd : ∀ d ∈ s.deletes, d.key ≠ k := by
      intro del hdel
      obtain ⟨i, hi⟩ := List.getElem?_of_mem hdel
      obtain ⟨del', hi', e⟩ := exists_deleteStep h hi
      exact e.key ▸ hd del' (List.mem_of_getElem? hi')
    exact Put.covers_of_step d.clean h (d.clean.not_erases hd) (fun p => d.stored k hd p) hr
  calls i r := by
    rw [List.filter_append, d.calls, State.owedCalls_step h d.placed]

theorem of_reachable (r : (recordedCluster cfg α).Reachable (fun _ l => l.CleanKey) (s, log)) :
    Recorded cfg s log := by
  have init : ∀ s, (cluster cfg α).init s → Recorded cfg s [] := fun _ hs => hs ▸ initial
  have inv := r.recorded_invariant (P := fun _ l => l.CleanKey) init
    fun _ _ _ _ _ hl h d => d.step hl h
  exact inv.right

theorem put (d : Recorded cfg s log) (p : Put s k) : p.op.Placed cfg :=
  d.placed p.op <| List.mem_of_getElem? p.mem

end Recorded
end Invariant

section Accounted

-- When all replica writes have completed, each of them was acknowledged or has failed.
theorem Write.mem_acked_iff {w : Write α} (h : ¬w.Active) : r ∈ w.call.acked ↔ ¬w.Missed r := by
  rw [QuorumCall.mem_acked, Missed, not_or, not_not]
  constructor
  case mp =>
    intro ⟨b, hb⟩
    refine ⟨w.call.subset _ hb, fun hn => ?_⟩
    cases List.inj_on_of_nodup_map w.call.nodup hb hn rfl
  case mpr =>
    intro ⟨hr, hn⟩
    have hs : w.call.completed.map Prod.fst ⊆ w.call.prefs := by
      intro r hr
      obtain ⟨c, hc, rfl⟩ := List.mem_map.mp hr
      exact w.call.subset c hc
    have hl : w.call.prefs.length ≤ (w.call.completed.map Prod.fst).length := by
      simpa [Active] using h
    have hp := (w.call.nodup.subperm hs).perm_of_length_le hl
    obtain ⟨⟨r, _ | b⟩, hc, rfl⟩ := List.mem_map.mp <| hp.mem_iff.mpr hr
    · exact absurd hc hn
    · exact ⟨b, hc⟩

-- The put has left its version at each preferred node, or has handed over exactly one hint for it.
structure Put.Accounted (cfg : Config) (log : List (HintCall α)) (p : Put s k) : Prop where
  holder   : cfg.ring.getPreferenceList cfg.hash k (p.op.prefs.length + 1) =
    some (p.op.prefs ++ p.write.hintHolder.toList)
  spare    : p.write.hintHolder.isSome ↔ ∃ m, cfg.ring.Places m ∧ m ∉ p.op.prefs
  replicas : ¬p.write.Active → ∀ r ∈ p.op.prefs,
    (r ∈ p.write.call.acked ∧ log.filter (·.IsFor p.index r) = [] ∧
      ((∀ d ∈ s.deletes, d.key ≠ k) →
        ∃ v ∈ (s.node r).getLocal k, v.clock.dominatesOrEqual p.version.clock)) ∨
    (r ∉ p.write.call.acked ∧ log.filter (·.IsFor p.index r) =
      p.write.hintHolder.toList.map fun holder => ⟨p.index, p.coord, holder, r, k, p.version⟩)
  calls    : ∀ c ∈ log, c.op = p.index →
    c.target ∈ p.op.prefs ∧ c.holder ∉ p.op.prefs ∧ c.received cfg = some k
  acked    : p.write.call.acked.Nodup ∧ p.write.call.acked ⊆ p.op.prefs
  response : ∀ o, p.op.outcome = some o →
    (cfg.writeThreshold p.op.prefs ≤ p.write.call.acked.length ∧ o.response = .ok p.version) ∨
      o.response = .error (.writeQuorum k)

namespace Recorded

variable {log : List (HintCall α)}

theorem exists_owed (d : Recorded cfg s log) (p : Put s k) {c : HintCall α} (hc : c ∈ log)
    (hi : c.op = p.index) : c.target ∈ p.op.prefs ∧ ∃ holder, p.write.hintHolder = some holder ∧
      c = ⟨p.index, p.coord, holder, c.target, k, p.version⟩ := by
  have hm : c ∈ log.filter (·.IsFor p.index c.target) := by simp [hc, HintCall.IsFor, hi]
  simp only [d.calls, State.owedCalls, p.mem, Option.elim_some, Op.owedCalls, p.wrote] at hm
  split at hm
  case isFalse => contradiction
  case isTrue hr =>
    refine ⟨hr.left, ?_⟩
    unfold Op.hintCalls at hm
    split at hm
    case h_1 => contradiction
    case h_2 holder hh => exact ⟨holder, hh, by simpa [p.key, Put.coord, Put.version] using hm⟩

theorem spare (d : Recorded cfg s log) (p : Put s k) :
    cfg.ring.getPreferenceList cfg.hash k (p.op.prefs.length + 1) =
        some (p.op.prefs ++ p.write.hintHolder.toList) ∧
      (p.write.hintHolder.isSome ↔ ∃ m, cfg.ring.Places m ∧ m ∉ p.op.prefs) := by
  have hp := (d.put p).prefs
  have hh := (d.put p).holder p.write p.wrote
  rw [p.key] at hp hh
  obtain ⟨spare, hs, hn, hi⟩ := HashRing.Built.exists_spare (HashRing.built_ofNodes ..) hp
  have he : p.write.hintHolder = spare := by
    rw [hh, Config.hintHolder, Config.ring, hs, Option.bind_some, List.find?_append,
      List.find?_eq_none.mpr (by simp), Option.none_or]
    cases spare
    case none   => rfl
    case some m => simpa using hn m rfl
  rw [he]
  exact ⟨hs, hi⟩

theorem accounted (d : Recorded cfg s log) (p : Put s k) : p.Accounted cfg log where
  holder := (d.spare p).left
  spare  := (d.spare p).right
  replicas ha r hr := by
    have hc : log.filter (·.IsFor p.index r) =
        if p.write.Missed r then p.op.hintCalls p.index p.write [r] else [] := by
      simp only [d.calls, State.owedCalls, p.mem, Option.elim_some, Op.owedCalls, p.wrote, hr,
        true_and]
    by_cases hm : p.write.Missed r
    case pos =>
      refine .inr ⟨fun hr => (Write.mem_acked_iff ha).mp hr hm, ?_⟩
      rw [hc, if_pos hm]
      cases hh : p.write.hintHolder <;> simp [Op.hintCalls, hh, p.key, Put.coord, Put.version]
    case neg =>
      have hack := (Write.mem_acked_iff ha).mpr hm
      refine .inl ⟨hack, by rw [hc, if_neg hm], fun hd => ?_⟩
      obtain ⟨b, hb⟩ := QuorumCall.mem_acked.mp hack
      obtain ⟨v, hv, hle⟩ := d.stored k hd p <| p.write.call.justified r b hb
      exact ⟨v, hv, VectorClock.dominatesOrEqual_iff.mpr hle⟩
  calls c hc hi := by
    obtain ⟨ht, holder, hh, he⟩ := d.exists_owed p hc hi
    have hk : Clean k := p.key ▸ d.clean.ops p.mem
    rw [he]
    exact ⟨ht, fun hm => (d.put p).hintHolder_ne p.wrote hm hh, hk.internalHints ..⟩
  acked := ⟨QuorumCall.acked_nodup,
    List.Subset.trans QuorumCall.acked_subset <| (d.put p).writes p.write p.wrote⟩
  response o ho := by
    have hr := (d.put p).response p.write o p.wrote ho
    rw [p.key] at hr
    exact hr

end Recorded

namespace Threads

-- The calls in a step. The one which raises an exception is the first for a node presumed down.
def State.hintCalls (cfg : Config) (s : State α) : Label α → List (HintCall α)
  | .request l    => s.cluster.hintCalls cfg l
  | .get _        => []
  | .raise i down => s.cluster.hintCalls cfg (.putWrite i down) |>.take 1

abbrev recordedSystem (cfg : Config) (builds : Key → α → Bool) :
    TransitionSystem (State α × List (HintCall α)) (Label α) :=
  (system cfg builds).recorded (State.hintCalls cfg)

theorem recordedSystem_init {builds : Key → α → Bool} :
    (recordedSystem cfg builds).init (.initial, []) :=
  ⟨rfl, rfl⟩

-- The record is one of a cluster whose replicas handle one request at a time.
theorem recordedCluster_of_reachable {builds : Key → α → Bool} {x : State α × List (HintCall α)}
    (r : (recordedSystem cfg builds).Reachable
      (fun x => On (fun _ l => l.CleanKey ∧ Builds builds l) x.1) x) :
    (recordedCluster cfg α).Reachable (fun _ l => l.CleanKey) (x.1.cluster, x.2) ∧
      x.1.raised = [] := by
  let I (x : State α × List (HintCall α)) : Prop :=
    (recordedCluster cfg α).Reachable (fun _ l => l.CleanKey) (x.1.cluster, x.2) ∧
      x.1.raised = [] ∧ Current x.1 ∧ ∀ op ∈ x.1.cluster.ops, op.request.Builds builds op.key
  suffices h : I x from ⟨h.left, h.right.left⟩
  refine r.invariant (fun x hi => ?init) fun x l y _ hp h ⟨hr, hn, cu, hb⟩ => ?step
  case init =>
    obtain ⟨hi, hl⟩ := hi
    refine ⟨.initial ⟨?_, hl⟩, ?_, ?_, ?_⟩ <;> rw [hi]
    · rfl
    · rfl
    · exact nofun
    · exact nofun
  case step =>
    obtain ⟨h, hl⟩ := TransitionSystem.recorded_step.mp h
    obtain ⟨e, cu'⟩ := cu.step hp h
    clear h
    cases y
    cases hl
    cases e
    case request hc =>
      obtain ⟨_, hk, hv⟩ := hp
      refine ⟨hr.step hk <| TransitionSystem.recorded_step.mpr ⟨hc, rfl⟩, hn, cu', ?_⟩
      exact builds_of_step hc hv hb
    case get       => exact ⟨by simpa [State.hintCalls] using hr, hn, cu', hb⟩
    case raise hr' => exact absurd hr' <| not_raises hb

end Threads

-- Every preferred node of a put is written or hinted, whatever the coordinator believes of it and
-- in whatever order its replica writes succeed and fail.
theorem put_accounted {builds : Key → α → Bool} {x : Threads.State α × List (HintCall α)}
    (r : (Threads.recordedSystem cfg builds).Reachable
      (fun x => Threads.On (fun _ l => l.CleanKey ∧ Threads.Builds builds l) x.1) x) :
    x.1.raised = [] ∧ ∀ k, ∀ p : Put x.1.cluster k, p.Accounted cfg x.2 :=
  have ⟨r, hn⟩ := Threads.recordedCluster_of_reachable r
  ⟨hn, fun _ p => (Recorded.of_reachable r).accounted p⟩

-- The coordinator "a" believes "c" to be down, and its request to "b" fails, though only after "b"
-- has read its siblings.
def putWithFailure : List (Threads.Label Nat) := [
  .request (.invoke "a" "k" (.put 7)), .request (.read 0 "a"), .request (.read 0 "b"),
  .request (.readDone 0 "a" true), .request (.readDone 0 "b" true), .request (.putWrite 0 ["c"]),
  .get 1, .get 2, .request (.deliver 1 false), .request (.writeDone 0 "a" true),
  .request (.writeDone 0 "b" false), .request (.putReturn 0)]

abbrev afterPutWithFailure : Threads.State Nat × List (HintCall Nat) :=
  (Threads.recordedSystem spareCluster fun _ _ => true).after
    (fun x => Threads.On (fun _ l => l.CleanKey ∧ Threads.Builds (fun _ _ => true) l) x.1)
    (.initial, []) putWithFailure

set_option maxRecDepth 100000 in
theorem put_accounted_hinted : ∃ x : Threads.State Nat × List (HintCall Nat),
    x.2.map (fun c => (c.holder, c.target)) = [("d", "c"), ("d", "b")] ∧ x.1.raised = [] ∧
      ∀ k, ∀ p : Put x.1.cluster k, p.Accounted spareCluster x.2 :=
  ⟨afterPutWithFailure, by decide, put_accounted (.after Threads.recordedSystem_init _)⟩

abbrev afterRecordedPutToAll : State Nat × List (HintCall Nat) :=
  (recordedCluster spareCluster Nat).after (fun _ _ => True) (.initial, []) putToAll

-- "b" acknowledges the put, but stores its version under another key.
set_option maxRecDepth 100000 in
theorem not_put_accounted : ¬∀ (cfg : Config) (x : State Nat × List (HintCall Nat)),
    (recordedCluster cfg Nat).Reachable (fun _ _ => True) x →
      ∀ k, ∀ p : Put x.1 k, p.Accounted cfg x.2 := by
  intro h
  let x := afterRecordedPutToAll
  obtain ⟨op, hop, w, hw, hk, ha, hr, hack⟩ : ∃ op ∈ x.1.ops[0]?, ∃ w ∈ op.write,
      op.key = "a?b" ∧ ¬w.Active ∧ "b" ∈ op.prefs ∧ "b" ∈ w.call.acked := by
    decide
  have hd : x.1.deletes.length = 0 := by decide
  have hn : (x.1.node "b").getLocal "a?b" = [] := by decide
  let p : Put x.1 "a?b" := ⟨0, op, w, hop, hk, hw⟩
  have hp := h spareCluster x (.after recordedCluster_init _) _ p
  rcases hp.replicas ha "b" hr with ⟨_, _, hs⟩ | ⟨hne, _⟩
  · obtain ⟨v, hv, _⟩ := hs fun d hm => by simp [List.length_eq_zero_iff.mp hd] at hm
    rw [hn] at hv
    contradiction
  · exact hne hack

end Accounted
end DynamoKV

import DynamoKV.Execution.Theorems.Steps

-- How operations evolve over a step. What has been recorded about them never changes again.
namespace DynamoKV

variable {α : Type} {cfg : Config} {s s' : State α} {l : Label α}

namespace QuorumCall

-- Nodes may still execute the operation and futures may still complete.
structure Evolves (q q' : QuorumCall β) : Prop where
  prefs     : q'.prefs = q.prefs
  handled   : q.handled ⊆ q'.handled
  successes : 0 < t → q.Reached t → q'.successes t = q.successes t
  completed : q.completed.length ≤ q'.completed.length
  final     : q.completed.length = q.prefs.length → q'.completed = q.completed

variable {β : Type*} {q : QuorumCall β}

theorem Completes.completed_lt (h : q.Completes r ok) : q.completed.length < q.prefs.length := by
  have hn : (r :: q.completed.map Prod.fst).Nodup := List.nodup_cons.mpr ⟨h.pending, q.nodup⟩
  have hs : r :: q.completed.map Prod.fst ⊆ q.prefs := by
    refine List.cons_subset.mpr ⟨h.mem, fun x hx => ?_⟩
    have ⟨c, hc, he⟩ := List.mem_map.mp hx
    exact he ▸ q.subset c hc
  simpa using (hn.subperm hs).length_le

-- A future which has not completed may fail.
theorem exists_completes (hd : q.prefs.Nodup) (h : q.completed.length < q.prefs.length) :
    ∃ r, q.Completes r false := by
  by_contra hn
  have hs : q.prefs ⊆ q.completed.map Prod.fst := by
    intro r hr
    by_contra hc
    exact hn ⟨r, hr, hc, by simp⟩
  have := (hd.subperm hs).length_le
  rw [List.length_map] at this
  omega

theorem Evolves.refl (q : QuorumCall β) : Evolves q q :=
  ⟨rfl, List.Subset.refl _, fun _ _ => rfl, le_rfl, fun _ => rfl⟩

theorem Evolves.handle : Evolves q (q.handle r b) :=
  ⟨prefs_handle, handled_subset_handle, fun _ _ => successes_handle, by simp, by simp⟩

theorem Evolves.complete : Evolves q (q.complete r ok) where
  prefs           := prefs_complete
  handled         := by simp
  successes ht hr := hr.successes_complete ht
  completed       := by
    unfold QuorumCall.complete
    split <;> simp
  final hl        := by
    unfold QuorumCall.complete
    split
    case isTrue h  => exact absurd hl h.completed_lt.ne
    case isFalse   => rfl

end QuorumCall

structure Write.Evolves (w w' : Write α) : Prop where
  merged     : w'.merged = w.merged
  version    : w'.version = w.version
  hintHolder : w'.hintHolder = w.hintHolder
  call       : w.call.Evolves w'.call

theorem Write.Evolves.refl (w : Write α) : w.Evolves w :=
  ⟨rfl, rfl, rfl, .refl _⟩

-- A put has read what it needs and starts its replica writes.
structure Mints (cfg : Config) (s : State α) (l : Label α) (i : Nat) (op : Op α) (w : Write α) :
    Prop where
  label    : ∃ down, l = .putWrite i down
  fresh    : op.write = none
  finished : op.ReadFinished cfg
  merged   : op.mergedRead cfg = .ok w.merged
  put      : ∃ value, op.request = .put value ∧ w.version = op.newVersion w.merged value
  holder   : w.hintHolder = cfg.hintHolder op.key op.prefs
  prefs    : w.call.prefs ⊆ op.prefs
  handled  : w.call.handled = []

-- The ways in which an operation returns.
inductive Concludes (cfg : Config) (op : Op α) : Response α (Version α) → Prop
  | get     : ¬op.request.isPut → op.ReadFinished cfg →
      Concludes cfg op (op.mergedRead cfg >>= getResponse op.key)
  | putFail : op.request = .put value → op.write = none → op.mergedRead cfg = .error e →
      Concludes cfg op (.error e)
  | put     : op.write = some w → op.WriteFinished cfg w → Concludes cfg op (op.writeResponse cfg w)

section Write

variable {op : Op α}

theorem Op.write_completeWrite (h : op.write = some w) :
    (op.completeWrite r ok).write = some { w with call := w.call.complete r ok } := by
  simp [completeWrite, h]

theorem Op.write_handleWrite (h : op.write = some w) :
    (op.handleWrite r).write = some { w with call := w.call.handle r () } := by
  simp [handleWrite, h]

end Write

namespace OpStep

variable {op op' : Op α}

theorem coord (e : OpStep cfg s l i op op') : op'.coord = op.coord := by
  cases e <;> rfl

theorem key (e : OpStep cfg s l i op op') : op'.key = op.key := by
  cases e <;> rfl

theorem request (e : OpStep cfg s l i op op') : op'.request = op.request := by
  cases e <;> rfl

theorem started (e : OpStep cfg s l i op op') : op'.started = op.started := by
  cases e <;> rfl

theorem read' (e : OpStep cfg s l i op op') : op.read.Evolves op'.read := by
  cases e
  case read     => exact .handle
  case readDone => exact .complete
  all_goals exact .refl _

theorem prefs (e : OpStep cfg s l i op op') : op'.prefs = op.prefs :=
  e.read'.prefs

theorem outcome (e : OpStep cfg s l i op op') (h : op.outcome = some o) : op'.outcome = some o := by
  cases e
  case getReturn hf  => exact absurd hf.left (by simp [h])
  case putFail hf _  => exact absurd hf.left (by simp [h])
  case putReturn hf  => exact absurd hf.left (by simp [h])
  all_goals exact h

theorem outcome_of (e : OpStep cfg s l i op op') (h : op'.outcome = some o) :
    op.outcome = some o ∨ op.outcome = none ∧ o.time = s.time ∧ Concludes cfg op o.response := by
  cases e
  case getReturn hg hf =>
    cases h
    exact .inr ⟨by simpa using hf.left, rfl, .get hg hf⟩
  case putFail hq hw hf hm =>
    cases h
    exact .inr ⟨by simpa using hf.left, rfl, .putFail hq hw hm⟩
  case putReturn hw hf =>
    cases h
    exact .inr ⟨by simpa using hf.left, rfl, .put hw hf⟩
  all_goals exact .inl h

theorem write' (e : OpStep cfg s l i op op') (h : op.write = some w) :
    ∃ w', op'.write = some w' ∧ w.Evolves w' := by
  cases e
  case putWrite hn _ _ _ => simp [hn] at h
  case writeDone => exact ⟨_, Op.write_completeWrite h, rfl, rfl, rfl, .complete⟩
  case deliver   => exact ⟨_, Op.write_handleWrite h, rfl, rfl, rfl, .handle⟩
  all_goals exact ⟨w, h, .refl w⟩

theorem write_of (e : OpStep cfg s l i op op') (h : op'.write = some w') :
    (∃ w, op.write = some w ∧ w.Evolves w') ∨ Mints cfg s l i op w' := by
  cases e
  case putWrite down merged value hq hn hf hd hm =>
    cases h
    refine .inr ⟨⟨down, rfl⟩, hn, hf, hm, ⟨value, hq, rfl⟩, rfl, ?_, rfl⟩
    exact List.filter_subset_self _
  case writeDone w r ok hc hw =>
    cases (Op.write_completeWrite hw).symm.trans h
    exact .inl ⟨w, hw, rfl, rfl, rfl, .complete⟩
  case deliver r _ _ _ _ _ =>
    simp only [Op.handleWrite, Option.map_eq_some_iff] at h
    obtain ⟨w, hw, rfl⟩ := h
    exact .inl ⟨w, hw, rfl, rfl, rfl, .handle⟩
  all_goals exact .inl ⟨w', h, .refl w'⟩

theorem answer_of (e : OpStep cfg s l i op op') (h : x ∈ op'.read.handled) :
    x ∈ op.read.handled ∨
      l = .read i x.1 ∧ x.1 ∈ op.prefs ∧ x.2 = s.answer cfg op.coord x.1 op.key := by
  cases e
  case read r hr =>
    refine (QuorumCall.mem_handled_handle h).imp_right fun hx => ?_
    subst hx
    exact ⟨rfl, hr, rfl⟩
  case readDone => exact .inl <| by simpa [Op.completeRead] using h
  all_goals exact .inl h

theorem ack_of (e : OpStep cfg s l i op op') (hw : op.write = some w) (hw' : op'.write = some w')
    (h : x ∈ w'.call.handled) : x ∈ w.call.handled ∨
      ∃ m again key v, l = .deliver m again ∧ s.net[m]? = some (.put i x.1 (some key) v) := by
  cases e
  case putWrite hn _ _ _ => simp [hn] at hw
  case writeDone _ _     =>
    cases (Op.write_completeWrite hw).symm.trans hw'
    exact .inl <| by simpa using h
  case deliver m again r key v hm =>
    cases (Op.write_handleWrite hw).symm.trans hw'
    refine (QuorumCall.mem_handled_handle h).imp_right fun hx => ?_
    subst hx
    exact ⟨m, again, key, v, rfl, hm⟩
  all_goals
    cases hw.symm.trans hw'
    exact .inl h

end OpStep

section Ops

-- Operations are never dropped.
theorem exists_opStep (h : step cfg s l = some s') (hj : s.ops[j]? = some op) :
    ∃ op', s'.ops[j]? = some op' ∧ OpStep cfg s l j op op' :=
  step_ops h |>.kept (fun _ _ => .idle) hj

theorem opStep_or_started (h : step cfg s l = some s') (hj : s'.ops[j]? = some op') :
    (∃ op, s.ops[j]? = some op ∧ OpStep cfg s l j op op') ∨ Started cfg s l j op' :=
  step_ops h |>.origin (fun _ _ => .idle) hj

theorem opStep_or_started_of_lt (h : step cfg s l = some s') (hij : i < j)
    (hi : s'.ops[i]? = some a') (hj : s'.ops[j]? = some b') :
    ∃ a, s.ops[i]? = some a ∧ OpStep cfg s l i a a' ∧
      ((∃ b, s.ops[j]? = some b ∧ OpStep cfg s l j b b') ∨ Started cfg s l j b') :=
  step_ops h |>.origin_of_lt (fun _ _ => .idle) hij hi hj

end Ops
end DynamoKV

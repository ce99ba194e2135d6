import DynamoKV.Execution.Convergence

-- Which requests fail for lack of a quorum.
namespace DynamoKV

variable {α : Type} {cfg : Config} {s s' : State α} {l : Label α}

namespace QuorumCall

variable {β : Type*} {q q' : QuorumCall β}

-- The loop counts the futures that have succeeded, up to the threshold.
theorem reached_iff : q.Reached t ↔ t ≤ q.acked.length := by
  refine ⟨fun h => h.trans length_successes_le, fun h => le_length_collect ?_⟩
  simpa [acked, List.countP_eq_length_filter] using h

-- All futures have completed, but not enough of them have succeeded.
structure Short (q : QuorumCall β) (threshold : Nat) : Prop where
  acked     : q.acked.length < threshold
  completed : q.completed.length = q.prefs.length

theorem Finished.short_or (h : q.Finished t) : q.Short t ∨ q.Reached t := by
  rcases h with h | h
  · exact .inr h.right
  · exact (Nat.lt_or_ge q.acked.length t).imp (⟨·, h⟩) reached_iff.mpr

theorem Evolves.short (e : q.Evolves q') (h : q.Short t) : q'.Short t := by
  have hc := e.final h.completed
  refine ⟨?_, by rw [hc, e.prefs, h.completed]⟩
  rw [acked, hc]
  exact h.acked

theorem Evolves.reached_of (e : q.Evolves q') (h : q.Reached t) : q'.Reached t := by
  cases t
  case zero   => exact Nat.zero_le _
  case succ t => exact e.reached t.succ_pos h

end QuorumCall

section Exceptions

variable {key : Key}

theorem HTTPException.readQuorum_ne_writeQuorum :
    (readQuorum key : HTTPException α) ≠ writeQuorum key := by
  intro h
  simp only [readQuorum, writeQuorum, HTTPException.mk.injEq, true_and, Detail.text.injEq] at h
  have := congrArg (·.toList[16]?) h
  simp at this

theorem getResponse_ne_error {e : HTTPException α} (h : e.statusCode = 503)
    (merged : List (Version α)) : getResponse key merged ≠ .error e := by
  intro he
  have hs := congrArg Response.statusCode he
  rw [Response.statusCode, h] at hs
  rcases merged with _ | ⟨_, _ | ⟨_, _⟩⟩
  · simp [getResponse, HTTPException.notFound, Response.statusCode] at hs
  · simp [getResponse, Response.statusCode] at hs
  · simp [getResponse, HTTPException.conflict, Response.statusCode] at hs

end Exceptions

section Invariant

-- A call which has led to the response or not has failed or succeeded for good.
structure Decides (q : QuorumCall β) (threshold : Nat) (failed : Prop) : Prop where
  decided : failed ∧ q.Short threshold ∨ ¬failed ∧ q.Reached threshold

theorem Decides.evolves {q q' : QuorumCall β} (h : Decides q t failed) (e : q.Evolves q') :
    Decides q' t failed :=
  ⟨h.decided.imp (And.imp_right e.short) (And.imp_right e.reached_of)⟩

theorem Decides.iff {q : QuorumCall β} (h : Decides q t failed) : failed ↔ q.acked.length < t := by
  rcases h.decided with ⟨hf, hs⟩ | ⟨hf, hr⟩
  · exact iff_of_true hf hs.acked
  · exact iff_of_false hf (QuorumCall.reached_iff.mp hr).not_gt

-- How the calls of an operation have decided its response.
structure Op.Decided (cfg : Config) (op : Op α) : Prop where
  minted    : ∀ w, op.write = some w → op.read.Reached (cfg.readThreshold op.prefs)
  read      : ∀ o, op.outcome = some o →
    Decides op.read (cfg.readThreshold op.prefs) (o.response = .error (.readQuorum op.key))
  write     : ∀ o w, op.outcome = some o → op.write = some w →
    Decides w.call (cfg.writeThreshold op.prefs) (o.response = .error (.writeQuorum op.key))
  unwritten : ∀ o, op.outcome = some o → op.write = none →
    o.response ≠ .error (.writeQuorum op.key)

namespace Op.Decided

variable {op op' : Op α}

theorem of_started (h : Started cfg s l i op) : op.Decided cfg := by
  constructor <;> simp [h.write, h.outcome]

theorem step_minted (d : op.Decided cfg) (e : OpStep cfg s l i op op') (w' : Write α)
    (hw : op'.write = some w') : op'.read.Reached (cfg.readThreshold op'.prefs) := by
  rw [e.prefs]
  rcases e.write_of hw with ⟨w, hw, _⟩ | hm
  · exact e.read'.reached_of <| d.minted w hw
  · exact e.read'.reached_of (mergedRead_eq_ok hm.merged).left

-- A step which does not return keeps what has been decided.
theorem keep (d : op.Decided cfg) (e : OpStep cfg s l i op op') (h : op'.outcome = op.outcome) :
    op'.Decided cfg where
  minted := d.step_minted e
  read o ho := by
    rw [e.prefs, e.key]
    exact (d.read o (h ▸ ho)).evolves e.read'
  write o w' ho hw' := by
    rw [e.prefs, e.key]
    rcases e.write_of hw' with ⟨w, hw, ew⟩ | hm
    · exact (d.write o w (h ▸ ho) hw).evolves ew.call
    · have hn := hm.finished.left
      rw [← h, ho] at hn
      contradiction
  unwritten o ho hn := by
    rw [e.key]
    refine d.unwritten o (h ▸ ho) ?_
    cases hw : op.write
    case none   => rfl
    case some w =>
      obtain ⟨w', hw', _⟩ := e.write' hw
      cases hn.symm.trans hw'

theorem mergedRead_error {e : HTTPException α} (h : op.mergedRead cfg = .error e) :
    e = .readQuorum op.key ∧ ¬op.read.Reached (cfg.readThreshold op.prefs) := by
  unfold Op.mergedRead at h
  split at h
  case isTrue     => contradiction
  case isFalse hr => exact ⟨(Except.error.inj h).symm, hr⟩

theorem of_getReturn (p : op.Placed cfg) (d : op.Decided cfg) (hg : ¬op.request.isPut)
    (hf : op.ReadFinished cfg) (time : Nat) :
    (op.conclude time <| op.mergedRead cfg >>= getResponse op.key).Decided cfg where
  minted := d.minted
  write _ w _ hw := absurd (p.put w hw) hg
  read o ho := by
    cases ho
    cases hm : op.mergedRead cfg
    case error e =>
      obtain ⟨rfl, hr⟩ := mergedRead_error hm
      exact ⟨.inl ⟨rfl, hf.right.short_or.resolve_right hr⟩⟩
    case ok merged => exact ⟨.inr ⟨getResponse_ne_error rfl merged, (mergedRead_eq_ok hm).left⟩⟩
  unwritten o ho _ he := by
    cases ho
    cases hm : op.mergedRead cfg
    case error e =>
      obtain ⟨rfl, _⟩ := mergedRead_error hm
      rw [hm] at he
      exact HTTPException.readQuorum_ne_writeQuorum <| Except.error.inj he
    case ok merged =>
      rw [hm] at he
      exact getResponse_ne_error rfl merged he

theorem of_putFail (d : op.Decided cfg) (hn : op.write = none) (hf : op.ReadFinished cfg)
    (hm : op.mergedRead cfg = .error e) (time : Nat) :
    (op.conclude time <| .error e).Decided cfg where
  minted := d.minted
  write _ w _ hw := by cases hn.symm.trans hw
  read o ho := by
    cases ho
    obtain ⟨rfl, hr⟩ := mergedRead_error hm
    exact ⟨.inl ⟨rfl, hf.right.short_or.resolve_right hr⟩⟩
  unwritten o ho _ he := by
    cases ho
    obtain ⟨rfl, _⟩ := mergedRead_error hm
    exact HTTPException.readQuorum_ne_writeQuorum <| Except.error.inj he

theorem of_putReturn (d : op.Decided cfg) (hw : op.write = some w) (hf : op.WriteFinished cfg w)
    (time : Nat) : (op.conclude time <| op.writeResponse cfg w).Decided cfg where
  minted := d.minted
  unwritten _ _ hn := by cases hw.symm.trans hn
  read o ho := by
    cases ho
    refine ⟨.inr ⟨fun he => ?_, d.minted w hw⟩⟩
    dsimp only [Op.writeResponse] at he
    split at he
    case isTrue  => contradiction
    case isFalse => exact HTTPException.readQuorum_ne_writeQuorum (Except.error.inj he).symm
  write o w' ho hw' := by
    cases ho
    cases hw.symm.trans hw'
    dsimp only [Op.writeResponse]
    split
    case isTrue hr  => exact ⟨.inr ⟨nofun, hr⟩⟩
    case isFalse hr => exact ⟨.inl ⟨rfl, hf.right.short_or.resolve_right hr⟩⟩

theorem step (p : op.Placed cfg) (d : op.Decided cfg) (e : OpStep cfg s l i op op') :
    op'.Decided cfg := by
  have he := e
  cases e
  case getReturn hg hf         => exact d.of_getReturn p hg hf _
  case putFail hn hf hm        => exact d.of_putFail hn hf hm _
  case putReturn hw hf         => exact d.of_putReturn hw hf _
  all_goals exact d.keep he rfl

theorem of_reachable {P : State α → Label α → Prop} (r : (cluster cfg α).Reachable P s) :
    ∀ op ∈ s.ops, op.Decided cfg := by
  refine r.invariant (I := fun s => ∀ op ∈ s.ops, op.Decided cfg) (fun s hs => ?init)
    fun s l s' r _ h hd op' hm => ?step
  case init => simp [show s = .initial from hs, State.initial]
  case step =>
    obtain ⟨i, ho⟩ := List.getElem?_of_mem hm
    rcases opStep_or_started h ho with ⟨op, ho, e⟩ | hs
    · have hm := List.mem_of_getElem? ho
      exact (hd op hm).step (Op.Placed.of_reachable r op hm) e
    · exact .of_started hs

end Op.Decided

def DeleteOp.Decided (cfg : Config) (d : DeleteOp α) : Prop :=
  ∀ o, d.outcome = some o →
    Decides d.call (cfg.writeThreshold d.call.prefs) (o.response = .error (.writeQuorum d.key))

namespace DeleteOp.Decided

variable {d d' : DeleteOp α}

theorem step (hd : d.Decided cfg) (e : DeleteStep cfg s l i d d') : d'.Decided cfg := by
  intro o ho
  have he := e
  cases e
  case deleteReturn hf =>
    cases ho
    dsimp only [DeleteOp.conclude, DeleteOp.response]
    split
    case isTrue hr  => exact ⟨.inr ⟨nofun, hr⟩⟩
    case isFalse hr => exact ⟨.inl ⟨rfl, hf.right.short_or.resolve_right hr⟩⟩
  all_goals
    rw [he.call.prefs, he.key]
    exact (hd o ho).evolves he.call

theorem of_reachable {P : State α → Label α → Prop} (r : (cluster cfg α).Reachable P s) :
    ∀ d ∈ s.deletes, d.Decided cfg := by
  refine r.invariant (I := fun s => ∀ d ∈ s.deletes, d.Decided cfg) (fun s hs => ?init)
    fun s l s' _ _ h hd d' hm => ?step
  case init => simp [show s = .initial from hs, State.initial]
  case step =>
    obtain ⟨i, hi⟩ := List.getElem?_of_mem hm
    rcases deleteStep_or_started h hi with ⟨d, hi, e⟩ | hs
    · exact (hd d <| List.mem_of_getElem? hi).step e
    · intro o ho
      cases hs.outcome.symm.trans ho

end DeleteOp.Decided
end Invariant

-- Requests fail for lack of a quorum exactly when too few replicas have answered, of all those
-- which were asked and before they have returned or after.
structure QuorumsDecide (cfg : Config) (s : State α) : Prop where
  read   : ∀ {i : Nat} {op : Op α} {o}, s.ops[i]? = some op → op.outcome = some o →
    (o.response = .error (.readQuorum op.key) ↔
      op.read.acked.length < cfg.readThreshold op.prefs)
  write  : ∀ {i : Nat} {op : Op α} {o}, s.ops[i]? = some op → op.outcome = some o →
    (o.response = .error (.writeQuorum op.key) ↔
      ∃ w, op.write = some w ∧ w.call.acked.length < cfg.writeThreshold op.prefs)
  delete : ∀ {i : Nat} {d : DeleteOp α} {o}, s.deletes[i]? = some d → d.outcome = some o →
    (o.response = .error (.writeQuorum d.key) ↔
      d.call.acked.length < cfg.writeThreshold d.call.prefs)

theorem quorumsDecide_of_reachable {P : State α → Label α → Prop}
    (r : (cluster cfg α).Reachable P s) : QuorumsDecide cfg s where
  read ho hout := ((Op.Decided.of_reachable r _ <| List.mem_of_getElem? ho).read _ hout).iff
  delete hd hout := (DeleteOp.Decided.of_reachable r _ (List.mem_of_getElem? hd) _ hout).iff
  write {_ op _} ho hout := by
    have d := Op.Decided.of_reachable r op <| List.mem_of_getElem? ho
    cases hw : op.write
    case none   => simpa using d.unwritten _ hout hw
    case some w => simpa using (d.write _ w hout hw).iff

section Example

-- The put gets its reads answered, but presumes two replicas down, so that its writes cannot
-- succeed.
def putWithoutQuorum : List (Label Nat) := [
  .invoke "a" "k" (.put 7), .read 0 "a", .read 0 "b", .readDone 0 "c" false, .readDone 0 "a" true,
  .readDone 0 "b" true, .putWrite 0 ["b", "c"], .deliver 0 false, .writeDone 0 "a" true,
  .putReturn 0]

abbrev afterPutWithoutQuorum : State Nat :=
  (cluster (.ofNodes ["a", "b", "c"] 3 2 2) Nat).after (fun _ _ => True) .initial putWithoutQuorum

set_option maxRecDepth 100000 in
theorem quorumsDecide_putWithoutQuorum : ∃ s : State Nat, (∃ op ∈ s.ops[0]?, ∃ o ∈ op.outcome,
    o.response.statusCode = 503 ∧ op.read.acked = ["a", "b"]) ∧
    QuorumsDecide (.ofNodes ["a", "b", "c"] 3 2 2) s :=
  ⟨afterPutWithoutQuorum, by decide,
    quorumsDecide_of_reachable (P := fun _ _ => True) (.after rfl _)⟩

end Example
end DynamoKV

import DynamoKV.Execution.Theorems.Quorums
import DynamoKV.Lib.Transition

-- The puts of a key, and where the versions in replies come from.
namespace DynamoKV

variable {α : Type} {cfg : Config} {s s' : State α} {l : Label α} {k : Key}

-- A put to the key which has made its version.
structure Put (s : State α) (k : Key) where
  index : Nat
  op    : Op α
  write : Write α
  mem   : s.ops[index]? = some op
  key   : op.key = k
  wrote : op.write = some write

namespace Put

def version (p : Put s k) : Version α :=
  p.write.version

def coord (p : Put s k) : NodeId :=
  p.op.coord

-- The replicas whose acknowledgements count.
def acks (cfg : Config) (p : Put s k) : List NodeId :=
  p.write.call.successes (cfg.writeThreshold p.op.prefs) |>.map Prod.fst

-- The put has made its version of one that it has read from the other put.
def Reads (p q : Put s k) : Prop :=
  p.version ∈ q.write.merged

theorem ext {p q : Put s k} (h : p.index = q.index) : p = q := by
  obtain ⟨i, op, w, hm, hk, hw⟩ := p
  obtain ⟨j, op', w', hm', hk', hw'⟩ := q
  obtain rfl : i = j := h
  obtain rfl : op = op' := Option.some.inj (hm.symm.trans hm')
  obtain rfl : w = w' := Option.some.inj (hw.symm.trans hw')
  rfl

instance : Finite (Put s k) := by
  refine .of_injective (β := Fin s.ops.length) (fun p => ⟨p.index, ?_⟩) fun p q h => ?_
  · exact (List.getElem?_eq_some_iff.mp p.mem).1
  · exact ext <| Fin.val_eq_of_eq h

-- A put before a step as it is after the step.
structure Continues (cfg : Config) (l : Label α) (p : Put s k) (p' : Put s' k) : Prop where
  index : p'.index = p.index
  op    : OpStep cfg s l p.index p.op p'.op
  write : p.write.Evolves p'.write

theorem Continues.version {p : Put s k} {p' : Put s' k} (h : p.Continues cfg l p') :
    p'.version = p.version :=
  h.write.version

theorem Continues.reads {p q : Put s k} {p' q' : Put s' k} (hp : p.Continues cfg l p')
    (hq : q.Continues cfg l q') : p'.Reads q' ↔ p.Reads q := by
  rw [Reads, hp.version, hq.write.merged, Reads]

theorem exists_continues (h : step cfg s l = some s') (p : Put s k) :
    ∃ p' : Put s' k, p.Continues cfg l p' := by
  have ⟨op', ho', e⟩ := exists_opStep h p.mem
  have ⟨w', hw', ew⟩ := e.write' p.wrote
  exact ⟨⟨p.index, op', w', ho', e.key ▸ p.key, hw'⟩, rfl, e, ew⟩

-- A put either continues, or its version is made by the step.
theorem continues_or_minted (h : step cfg s l = some s') (p' : Put s' k) :
    (∃ p : Put s k, p.Continues cfg l p') ∨
    ∃ op, s.ops[p'.index]? = some op ∧ op.key = k ∧ Mints cfg s l p'.index op p'.write ∧
      OpStep cfg s l p'.index op p'.op := by
  rcases opStep_or_started h p'.mem with ⟨op, ho, e⟩ | hs
  · have hk : op.key = k := e.key ▸ p'.key
    rcases e.write_of p'.wrote with ⟨w, hw, ew⟩ | hm
    · exact .inl ⟨⟨p'.index, op, w, ho, hk, hw⟩, rfl, e, ew⟩
    · exact .inr ⟨op, ho, hk, hm, e⟩
  · have := hs.write.symm.trans p'.wrote
    contradiction

theorem of_minted {op : Op α} (hm : Minted cfg s l s' i op w) (hk : op.key = k) :
    ∃ p' : Put s' k, p'.index = i ∧ p'.version = w.version := by
  have ⟨op', ho', hk', hw'⟩ := hm.after
  exact ⟨⟨i, op', w, ho', hk'.trans hk, hw'⟩, rfl, rfl⟩

end Put

-- What holds in all states of a cluster whose keys are received as they are.
structure Sound (cfg : Config) (s : State α) : Prop where
  clean   : CleanState s
  valid   : ∀ {i : Nat} {op : Op α}, s.ops[i]? = some op → op.Valid cfg s.time
  around  : ∀ {k : Key} {v}, Around s k v → ∃ p : Put s k, p.version = v
  answers : ∀ {i : Nat} {op : Op α}, s.ops[i]? = some op → x ∈ op.read.handled → v ∈ x.2 →
    ∃ p : Put s op.key, p.version = v
  seen    : ∀ {i : Nat} {op : Op α}, s.ops[i]? = some op → op.outcome = some o →
    ¬op.request.isPut → v ∈ o.response.versions →
    ∃ p : Put s op.key, p.version = v ∧ p.op.started < o.time

theorem exists_handled_of_mem_mergeReplies {op : Op α} (h : v ∈ mergeReplies (op.replies cfg)) :
    ∃ x ∈ op.read.handled, v ∈ x.2 := by
  have ⟨vs, hvs, hv⟩ := mem_mergeReplies h
  obtain ⟨x, hx, rfl⟩ := List.mem_map.mp hvs
  exact ⟨x, QuorumCall.handled_of_mem_successes hx, hv⟩

namespace Sound

theorem initial : Sound cfg (State.initial : State α) where
  clean         := .initial
  valid h       := by simp [State.initial] at h
  around h      := by
    cases h
    case stored h         => simp at h
    case hinted h         => simp [Node.empty] at h
    case sent h _         => simp [State.initial] at h
    case active h _ _ _ _ => simp [State.initial] at h
  answers h     := by simp [State.initial] at h
  seen h        := by simp [State.initial] at h

theorem step (q : cfg.Quorum) (d : Sound cfg s) (hl : l.CleanKey)
    (h : DynamoKV.step cfg s l = some s') : Sound cfg s' := by
  have clean := d.clean.step hl h
  have kept : ∀ {k v}, (∃ p : Put s k, p.version = v) → ∃ p : Put s' k, p.version = v := by
    intro k v ⟨p, hv⟩
    obtain ⟨p', e⟩ := p.exists_continues h
    exact ⟨p', e.version.trans hv⟩
  refine ⟨clean, ?valid, ?around, ?answers, ?seen⟩
  case valid =>
    intro i op' ho'
    rw [time_step h]
    rcases opStep_or_started h ho' with ⟨op, ho, e⟩ | hs
    · exact (d.valid ho).step q e
    · exact .of_started hs
  case around =>
    intro k v a
    rcases a.of_step d.clean clean h with a | ⟨i, op, w, hm, hk, hv⟩
    · exact kept <| d.around a
    · obtain ⟨p', _, hp'⟩ := Put.of_minted hm hk
      exact ⟨p', hp'.trans hv⟩
  case answers =>
    intro x v i op' ho' hx hv
    rcases opStep_or_started h ho' with ⟨op, ho, e⟩ | hs
    · rw [e.key]
      rcases e.answer_of hx with hx | ⟨_, _, hx⟩
      · exact kept <| d.answers ho hx hv
      · rw [hx, (d.clean.ops ho).answer] at hv
        exact kept <| d.around <| .stored hv
    · obtain ⟨_, _, hr⟩ := hs.read
      simp [hr, QuorumCall.submit] at hx
  case seen =>
    intro o v i op' ho' ht hg hv
    rcases opStep_or_started h ho' with ⟨op, ho, e⟩ | hs
    · rw [e.request] at hg
      rw [e.key]
      rcases e.outcome_of ht with ht | ⟨_, ht, hc⟩
      · obtain ⟨p, hp, hlt⟩ := d.seen ho ht hg hv
        obtain ⟨p', ep⟩ := p.exists_continues h
        exact ⟨p', ep.version.trans hp, ep.op.started ▸ hlt⟩
      · have ha := Op.Answered.of_concludes hc (d.valid ho).wrote
        rcases ha.versions hg with ⟨_, hn⟩ | ⟨_, hm⟩
        · simp [hn] at hv
        · obtain ⟨x, hx, hxv⟩ := exists_handled_of_mem_mergeReplies (hm ▸ hv)
          obtain ⟨p, hp⟩ := d.answers ho hx hxv
          obtain ⟨p', ep⟩ := p.exists_continues h
          refine ⟨p', ep.version.trans hp, ?_⟩
          rw [ep.op.started, ht]
          exact (d.valid p.mem).started
    · simp [hs.outcome] at ht

theorem of_reachable {P : State α → Label α → Prop} (q : cfg.Quorum)
    (r : (cluster cfg α).Reachable P s) (hp : ∀ s l, P s l → l.CleanKey) : Sound cfg s :=
  r.invariant (fun _ hs => hs ▸ initial) fun _ _ _ _ hl h d => d.step q (hp _ _ hl) h

end Sound
end DynamoKV

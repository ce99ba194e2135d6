import DynamoKV.Execution.Theorems.Puts
import DynamoKV.Lib.Causality

-- Where the versions of a key come from and what their clocks count, whatever N, R and W are.
namespace DynamoKV

open Relation

variable {α : Type} {cfg : Config} {s s' : State α} {l : Label α} {k : Key}

-- The versions in a response have been read by the operation, or made by it.
theorem Concludes.mem_versions {op : Op α} (h : Concludes cfg op response)
    (hv : v ∈ response.versions) :
    v ∈ mergeReplies (op.replies cfg) ∨ ∃ w, op.write = some w ∧ w.version = v := by
  have read {e} (hm : op.mergedRead cfg = .error e) : e = .readQuorum op.key := by
    unfold Op.mergedRead at hm
    split at hm
    case isTrue  => contradiction
    case isFalse => exact (Except.error.inj hm).symm
  cases h
  case get =>
    cases hm : op.mergedRead cfg
    case error e =>
      rw [hm, read hm] at hv
      simp [bind, Except.bind, HTTPException.readQuorum, Response.versions] at hv
    case ok merged =>
      rw [hm] at hv
      have hv : v ∈ (getResponse op.key merged).versions := hv
      rw [versions_getResponse] at hv
      exact .inl <| (mergedRead_eq_ok hm).right ▸ hv
  case putFail hm =>
    rw [read hm] at hv
    simp [HTTPException.readQuorum, Response.versions] at hv
  case put w hw _ =>
    unfold Op.writeResponse at hv
    split at hv
    case isTrue  => exact .inr ⟨w, hw, (List.mem_singleton.mp hv).symm⟩
    case isFalse => simp [HTTPException.writeQuorum, Response.versions] at hv

-- Every version is the version of a put, which has made it from what it has read.
structure Traced (s : State α) : Prop where
  clean    : CleanState s
  started  : ∀ {i : Nat} {op : Op α}, s.ops[i]? = some op → op.started < s.time
  around   : ∀ {k v}, Around s k v → ∃ p : Put s k, p.version = v
  answers  : ∀ {i : Nat} {op : Op α}, s.ops[i]? = some op → x ∈ op.read.handled → v ∈ x.2 →
    ∃ p : Put s op.key, p.version = v
  merged   : ∀ {k v} (p : Put s k), v ∈ p.write.merged → ∃ p' : Put s k, p'.version = v
  made     : ∀ {k} (p : Put s k), p.op.request = .put p.version.value ∧
    p.version.clock = (VectorClock.merge <| p.write.merged.map (·.clock)).incremented p.coord
  returned : ∀ {i : Nat} {op : Op α}, s.ops[i]? = some op → op.outcome = some o →
    v ∈ o.response.versions → ∃ p : Put s op.key, p.version = v ∧ p.op.started < o.time

namespace Traced

theorem initial : Traced (State.initial : State α) where
  clean      := .initial
  started h  := by simp [State.initial] at h
  around h   := by
    cases h
    case stored h         => simp at h
    case hinted h         => simp [Node.empty] at h
    case sent h _         => simp [State.initial] at h
    case active h _ _ _ _ => simp [State.initial] at h
  answers h  := by simp [State.initial] at h
  merged p   := absurd p.mem (by simp [State.initial])
  made p     := absurd p.mem (by simp [State.initial])
  returned h := by simp [State.initial] at h

-- What a quorum read has merged comes from puts.
theorem mergeReplies (t : Traced s) {i : Nat} {op : Op α} (ho : s.ops[i]? = some op)
    (h : v ∈ DynamoKV.mergeReplies (op.replies cfg)) : ∃ p : Put s op.key, p.version = v := by
  obtain ⟨_, hx, hv⟩ := exists_handled_of_mem_mergeReplies h
  exact t.answers ho hx hv

theorem step (t : Traced s) (hl : l.CleanKey) (h : DynamoKV.step cfg s l = some s') :
    Traced s' := by
  have clean := t.clean.step hl h
  have kept {k v} (hp : ∃ p : Put s k, p.version = v) : ∃ p : Put s' k, p.version = v := by
    obtain ⟨p, hv⟩ := hp
    obtain ⟨p', e⟩ := p.exists_continues h
    exact ⟨p', e.version.trans hv⟩
  refine ⟨clean, ?started, ?around, ?answers, ?merged, ?made, ?returned⟩
  case started =>
    intro i op' ho'
    rw [time_step h]
    rcases opStep_or_started h ho' with ⟨op, ho, e⟩ | hs
    · exact e.started ▸ (t.started ho).trans (Nat.lt_succ_self _)
    · exact hs.time ▸ Nat.lt_succ_self _
  case around =>
    intro k v a
    rcases a.of_step t.clean clean h with a | ⟨i, op, w, hm, hk, hv⟩
    · exact kept <| t.around a
    · obtain ⟨p', _, hp'⟩ := Put.of_minted hm hk
      exact ⟨p', hp'.trans hv⟩
  case answers =>
    intro x v i op' ho' hx hv
    rcases opStep_or_started h ho' with ⟨op, ho, e⟩ | hs
    · rw [e.key]
      rcases e.answer_of hx with hx | ⟨_, _, hx⟩
      · exact kept <| t.answers ho hx hv
      · rw [hx, (t.clean.ops ho).answer] at hv
        exact kept <| t.around <| .stored hv
    · obtain ⟨_, _, hr⟩ := hs.read
      simp [hr, QuorumCall.submit] at hx
  case merged =>
    intro k v p' hv
    rcases p'.continues_or_minted h with ⟨p, e⟩ | ⟨op, ho, rfl, hm, _⟩
    · exact kept <| t.merged p (e.write.merged ▸ hv)
    · exact kept <| t.mergeReplies ho ((mergedRead_eq_ok hm.merged).right ▸ hv)
  case made =>
    intro k p'
    rcases p'.continues_or_minted h with ⟨p, e⟩ | ⟨op, _, _, hm, e⟩
    · rw [e.op.request, e.version, e.write.merged, Put.coord, e.op.coord]
      exact t.made p
    · obtain ⟨_, hq, hv⟩ := hm.put
      rw [e.request, Put.version, hv, Put.coord, e.coord]
      exact ⟨hq, rfl⟩
  case returned =>
    intro o v i op' ho' hout hv
    rcases opStep_or_started h ho' with ⟨op, ho, e⟩ | hs
    · rw [e.key]
      have kept {t} (hp : ∃ p : Put s op.key, p.version = v ∧ p.op.started < t) :
          ∃ p : Put s' op.key, p.version = v ∧ p.op.started < t := by
        obtain ⟨p, hv, ht⟩ := hp
        obtain ⟨p', e⟩ := p.exists_continues h
        exact ⟨p', e.version.trans hv, e.op.started ▸ ht⟩
      rcases e.outcome_of hout with hout | ⟨_, ht, hc⟩
      · exact kept <| t.returned ho hout hv
      · rw [ht]
        rcases hc.mem_versions hv with hv | ⟨w, hw, rfl⟩
        · obtain ⟨p, hp⟩ := t.mergeReplies ho hv
          exact kept ⟨p, hp, t.started p.mem⟩
        · exact kept ⟨⟨i, op, w, ho, rfl, hw⟩, rfl, t.started ho⟩
    · simp [hs.outcome] at hout

theorem of_reachable {P : State α → Label α → Prop} (r : (cluster cfg α).Reachable P s)
    (hp : ∀ s l, P s l → l.CleanKey) : Traced s :=
  r.invariant (fun _ hs => hs ▸ initial) fun _ _ _ _ hl h t => t.step (hp _ _ hl) h

variable (t : Traced s)
include t

theorem lt_version {p p' : Put s k} (h : p.Reads p') : p.version < p'.version := by
  have hlt : p.version.clock < p'.version.clock := by
    rw [(t.made p').right]
    exact VectorClock.lt_merge_incremented (List.mem_map_of_mem h) _
  exact hlt

-- Clocks count the puts of each coordinator.
theorem counts : Causality.Counts (ι := Put s k) Put.coord (fun p => p.version.clock.get)
    Put.Reads where
  wf := by
    have : Std.Irrefl fun p p' : Put s k => p.version < p'.version := ⟨fun _ => lt_irrefl _⟩
    have : IsTrans (Put s k) fun p p' => p.version < p'.version := ⟨fun _ _ _ => lt_trans⟩
    exact Subrelation.wf t.lt_version <|
      Finite.wellFounded_of_trans_of_irrefl fun p p' : Put s k => p.version < p'.version
  source {p c n} hn hle := by
    have read (h : n ≤ (VectorClock.merge <| p.write.merged.map (·.clock)).get c) :
        ∃ p' : Put s k, p'.Reads p ∧ n ≤ p'.version.clock.get c := by
      obtain ⟨_, hc, hle⟩ := VectorClock.exists_le_get_of_le_merge_get hn h
      obtain ⟨v, hv, rfl⟩ := List.mem_map.mp hc
      obtain ⟨p', rfl⟩ := t.merged p hv
      exact ⟨p', hv, hle⟩
    rw [(t.made p).right] at hle ⊢
    by_cases hc : p.coord = c
    case neg => exact .inr <| read <| VectorClock.get_incremented_of_ne (Ne.symm hc) ▸ hle
    case pos =>
      subst hc
      rw [VectorClock.get_incremented_self] at hle ⊢
      rcases hle.lt_or_eq with hlt | he
      · exact .inr <| read <| by omega
      · exact .inl ⟨rfl, he.symm⟩

end Traced

-- Each entry of a clock counts puts of that coordinator, all of which the version has been made
-- from.
def ClockCounts (k : Key) (s : State α) : Prop :=
  ∀ (p : Put s k) (c : NodeId),
    p.version.clock.get c ≤ Nat.card {p' : Put s k // p'.coord = c} ∧
    ∀ n : Int, 0 < n → n ≤ p.version.clock.get c →
      ∃ p' : Put s k, ReflTransGen Put.Reads p' p ∧ p'.coord = c ∧ p'.version.clock.get c = n

theorem clockCounts_of_reachable (r : (cluster cfg α).Reachable (fun _ l => l.CleanKey) s) :
    ClockCounts k s := by
  have t := Traced.of_reachable r fun _ _ h => h
  exact fun p c => ⟨t.counts.le_card p c, fun _ hn h => t.counts.exists_reflTransGen hn h⟩

section Example

-- Reads and writes of one replica, so that "b" finds what "a" has put only by reading from "a".
def putAfterPut : List (Label Nat) := [
  .invoke "a" "k" (.put 7), .read 0 "a", .readDone 0 "a" true, .putWrite 0 ["b"], .deliver 0 false,
  .writeDone 0 "a" true, .putReturn 0, .invoke "b" "k" (.put 8), .read 1 "a", .readDone 1 "a" true,
  .putWrite 1 [], .deliver 1 false, .invoke "b" "k" .get, .read 2 "b", .readDone 2 "b" true,
  .getReturn 2]

abbrev afterPutAfterPut : State Nat :=
  (cluster (.ofNodes ["a", "b"] 2 1 1) Nat).after (fun _ l => l.CleanKey) .initial putAfterPut

set_option maxRecDepth 100000 in
theorem clockCounts_putAfterPut : ∃ s : State Nat, (∃ op ∈ s.ops[1]?, ∃ v ∈ op.version,
    v.clock.get "a" = 1 ∧ v.clock.get "b" = 1) ∧ ClockCounts "k" s :=
  ⟨afterPutAfterPut, by decide, clockCounts_of_reachable (.after rfl _)⟩

end Example
end DynamoKV

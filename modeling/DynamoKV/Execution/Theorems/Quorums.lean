import DynamoKV.Execution.Theorems.Around
import DynamoKV.Lib.Quorum

-- What quorum reads know of the puts that were acknowledged before they started.
namespace DynamoKV

open Antichain

variable {α : Type} {cfg : Config} {s s' : State α} {l : Label α}

-- Read and write quorums overlap.
structure Config.Quorum (cfg : Config) : Prop where
  n       : 1 ≤ cfg.n
  r       : 1 ≤ cfg.r
  w       : 1 ≤ cfg.w
  overlap : cfg.n < cfg.r + cfg.w

instance : Decidable cfg.Quorum :=
  decidable_of_iff (1 ≤ cfg.n ∧ 1 ≤ cfg.r ∧ 1 ≤ cfg.w ∧ cfg.n < cfg.r + cfg.w)
    ⟨fun ⟨h₁, h₂, h₃, h₄⟩ => ⟨h₁, h₂, h₃, h₄⟩, fun ⟨h₁, h₂, h₃, h₄⟩ => ⟨h₁, h₂, h₃, h₄⟩⟩

section Thresholds

variable {prefs : List NodeId}

theorem readThreshold_pos (q : cfg.Quorum) (h : cfg.preferenceList k = some prefs) :
    0 < cfg.readThreshold prefs :=
  lt_min q.r <| List.length_pos_of_ne_nil <| HashRing.getPreferenceList_ne_nil h

theorem writeThreshold_pos (q : cfg.Quorum) (h : cfg.preferenceList k = some prefs) :
    0 < cfg.writeThreshold prefs :=
  lt_min q.w <| List.length_pos_of_ne_nil <| HashRing.getPreferenceList_ne_nil h

theorem length_lt_thresholds (q : cfg.Quorum) (h : cfg.preferenceList k = some prefs) :
    prefs.length < cfg.readThreshold prefs + cfg.writeThreshold prefs := by
  have hn := HashRing.getPreferenceList_length_le (HashRing.built_ofNodes ..) h q.n
  have hp := List.length_pos_of_ne_nil <| HashRing.getPreferenceList_ne_nil h
  exact Quorum.lt_min_add_min q.r q.w q.overlap hn hp

end Thresholds

section Merge

variable {results : List (List (Version α))}

theorem mergeReplies_covers (h : vs ∈ results) (hv : Covers vs v) :
    Covers (mergeReplies results) v := by
  have ⟨x, hx, hvx⟩ := hv
  rw [mergeReplies_eq_insertAll]
  exact (insertAll_covers [] <| List.mem_flatten_of_mem h hx).mono hvx

theorem mem_mergeReplies (h : v ∈ mergeReplies results) : ∃ vs ∈ results, v ∈ vs := by
  rw [mergeReplies_eq_insertAll] at h
  exact List.mem_flatten.mp <| (mem_insertAll h).resolve_left List.not_mem_nil

theorem mergeReplies_pairwise (results : List (List (Version α))) :
    Pairwise (mergeReplies results) :=
  mergeReplies_eq_insertAll results ▸ (IsMaximal.of_insertAll _).pairwise

end Merge

namespace Op

-- What is known of a put which has started its replica writes.
structure Wrote (cfg : Config) (op : Op α) (w : Write α) : Prop where
  put    : ∃ value, op.request = .put value ∧ w.version = op.newVersion w.merged value
  read   : op.read.Reached (cfg.readThreshold op.prefs)
  merged : w.merged = mergeReplies (op.replies cfg)
  prefs  : w.call.prefs ⊆ op.prefs

-- What is known of an operation which has returned.
structure Answered (cfg : Config) (op : Op α) (response : Response α (Version α)) : Prop where
  get : ¬op.request.isPut →
    response = .error (.readQuorum op.key) ∧ op.read.completed.length = op.prefs.length ∧
      ¬op.read.Reached (cfg.readThreshold op.prefs) ∨
    op.read.Reached (cfg.readThreshold op.prefs) ∧
      response = getResponse op.key (mergeReplies <| op.replies cfg)
  put : op.request.isPut → response = .ok v →
    ∃ w, op.write = some w ∧ w.version = v ∧ w.call.Reached (cfg.writeThreshold op.prefs)

-- The read reaches its quorum, or at least no replica fails to answer it.
def Unfailed (cfg : Config) (op : Op α) : Prop :=
  op.read.Reached (cfg.readThreshold op.prefs) ∨ ∀ r, (r, none) ∉ op.read.completed

namespace Answered

variable {op : Op α} {response : Response α (Version α)}

theorem versions (h : op.Answered cfg response) (hg : ¬op.request.isPut) :
    response = .error (.readQuorum op.key) ∧ response.versions = [] ∨
    op.read.Reached (cfg.readThreshold op.prefs) ∧
      response.versions = mergeReplies (op.replies cfg) := by
  rcases h.get hg with ⟨rfl, _⟩ | ⟨hr, rfl⟩
  · exact .inl ⟨rfl, rfl⟩
  · exact .inr ⟨hr, versions_getResponse ..⟩

theorem of_unfailed (h : op.Answered cfg response) (hg : ¬op.request.isPut)
    (hu : op.Unfailed cfg) : op.read.Reached (cfg.readThreshold op.prefs) ∧
      response = getResponse op.key (mergeReplies <| op.replies cfg) := by
  rcases h.get hg with ⟨he, hc, hn⟩ | h
  case inr => exact h
  case inl =>
    have hr : op.read.Reached (cfg.readThreshold op.prefs) :=
      hu.elim id <| QuorumCall.reached_of_completed hc <| Nat.min_le_right ..
    exact absurd hr hn

end Answered

structure Valid (cfg : Config) (time : Nat) (op : Op α) : Prop where
  prefs    : cfg.preferenceList op.key = some op.prefs
  started  : op.started < time
  wrote    : op.write = some w → op.Wrote cfg w
  returned : op.outcome = some o → o.time < time
  answered : op.outcome = some o → op.Answered cfg o.response

end Op

section Valid

variable {op op' : Op α}

theorem QuorumCall.Evolves.reached {q q' : QuorumCall β} (e : q.Evolves q') (ht : 0 < t)
    (h : q.Reached t) : q'.Reached t := by
  rw [Reached, e.successes ht h]
  exact h

theorem OpStep.replies (e : OpStep cfg s l i op op') (ht : 0 < cfg.readThreshold op.prefs)
    (h : op.read.Reached (cfg.readThreshold op.prefs)) : op'.replies cfg = op.replies cfg := by
  rw [Op.replies, Op.replies, e.prefs, e.read'.successes ht h]

theorem mergedRead_eq_ok (h : op.mergedRead cfg = .ok merged) :
    op.read.Reached (cfg.readThreshold op.prefs) ∧ merged = mergeReplies (op.replies cfg) := by
  unfold Op.mergedRead at h
  split at h
  case isTrue hr => exact ⟨hr, (Except.ok.inj h).symm⟩
  case isFalse   => contradiction

theorem writeResponse_eq_ok (h : op.writeResponse cfg w = .ok v) :
    w.call.Reached (cfg.writeThreshold op.prefs) ∧ w.version = v := by
  unfold Op.writeResponse at h
  split at h
  case isTrue hr => exact ⟨hr, Except.ok.inj h⟩
  case isFalse   => contradiction

theorem Op.Valid.of_started (hs : Started cfg s l i op) : op.Valid cfg (s.time + 1) := by
  have ⟨prefs, hp, hr⟩ := hs.read
  refine ⟨?_, by simp [hs.time], ?_, ?_, ?_⟩
  · rw [hp, Op.prefs, hr]; rfl
  all_goals simp [hs.write, hs.outcome]

theorem Op.Wrote.step (q : cfg.Quorum) (hp : cfg.preferenceList op.key = some op.prefs)
    (h : op.Wrote cfg w) (e : OpStep cfg s l i op op') (ew : w.Evolves w') : op'.Wrote cfg w' := by
  have ht := readThreshold_pos q hp
  refine ⟨?put, ?read, ?merged, ?prefs⟩
  case put =>
    have ⟨value, hq, hv⟩ := h.put
    refine ⟨value, e.request ▸ hq, ?_⟩
    rw [ew.version, ew.merged, hv, Op.newVersion, Op.newVersion, e.coord]
  case read   => exact e.prefs ▸ e.read'.reached ht h.read
  case merged => rw [ew.merged, h.merged, e.replies ht h.read]
  case prefs  => rw [ew.call.prefs, e.prefs]; exact h.prefs

theorem Op.Wrote.of_mints (hm : Mints cfg s l i op w) (e : OpStep cfg s l i op op')
    (hp : cfg.preferenceList op.key = some op.prefs) (q : cfg.Quorum) : op'.Wrote cfg w := by
  have ⟨hr, hmerged⟩ := mergedRead_eq_ok hm.merged
  exact Op.Wrote.step q hp ⟨hm.put, hr, hmerged, hm.prefs⟩ e (.refl w)

theorem Op.Answered.of_concludes (h : Concludes cfg op response)
    (hw : ∀ {w}, op.write = some w → op.Wrote cfg w) : op.Answered cfg response := by
  cases h
  case get hg hf =>
    refine ⟨fun _ => ?_, fun hp => absurd hp hg⟩
    rw [Op.mergedRead]
    split
    case isTrue hr  => exact .inr ⟨hr, rfl⟩
    case isFalse hr => exact .inl ⟨rfl, hf.right.resolve_left fun h => hr h.right, hr⟩
  case putFail value e hq hw hm =>
    exact ⟨fun hp => absurd (by simp [hq, Request.isPut]) hp, fun _ h => by contradiction⟩
  case put w hwr hf =>
    obtain ⟨value, hq, _⟩ := (hw hwr).put
    refine ⟨fun hp => absurd (by simp [hq, Request.isPut]) hp, fun _ h => ?_⟩
    obtain ⟨hr, hv⟩ := writeResponse_eq_ok h
    exact ⟨w, hwr, hv, hr⟩

theorem Op.Answered.step (q : cfg.Quorum) (hp : cfg.preferenceList op.key = some op.prefs)
    (h : op.Answered cfg response) (e : OpStep cfg s l i op op') : op'.Answered cfg response := by
  refine ⟨?get, ?put⟩
  case get =>
    intro hg
    rw [e.request] at hg
    rw [e.key, e.prefs]
    refine (h.get hg).imp (fun ⟨he, hc, hr⟩ => ⟨he, ?_⟩) fun ⟨hr, he⟩ => ?_
    · have hf := e.read'.final hc
      rw [QuorumCall.Reached, QuorumCall.successes, hf]
      exact ⟨hc, hr⟩
    · have ht := readThreshold_pos q hp
      exact ⟨e.read'.reached ht hr, e.replies ht hr ▸ he⟩
  case put =>
    intro v hq hv
    obtain ⟨w, hw, hwv, hr⟩ := h.put (e.request ▸ hq) hv
    obtain ⟨w', hw', ew⟩ := e.write' hw
    exact ⟨w', hw', ew.version ▸ hwv, e.prefs ▸ ew.call.reached (writeThreshold_pos q hp) hr⟩

theorem Op.Valid.step (q : cfg.Quorum) (v : op.Valid cfg s.time) (e : OpStep cfg s l i op op') :
    op'.Valid cfg (s.time + 1) where
  prefs   := by rw [e.key, e.prefs]; exact v.prefs
  started := by rw [e.started]; exact v.started.trans (Nat.lt_succ_self _)
  wrote hw := by
    rcases e.write_of hw with ⟨w, hw, ew⟩ | hm
    · exact (v.wrote hw).step q v.prefs e ew
    · exact .of_mints hm e v.prefs q
  returned ho := by
    rcases e.outcome_of ho with ho | ⟨_, ht, _⟩
    · exact (v.returned ho).trans (Nat.lt_succ_self _)
    · exact ht ▸ Nat.lt_succ_self _
  answered ho := by
    rcases e.outcome_of ho with ho | ⟨_, _, hc⟩
    · exact (v.answered ho).step q v.prefs e
    · exact (Op.Answered.of_concludes hc v.wrote).step q v.prefs e

end Valid
end DynamoKV

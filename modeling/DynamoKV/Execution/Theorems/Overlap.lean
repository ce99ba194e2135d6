import DynamoKV.Execution.Clients

-- Reads find what was acknowledged before them, unless it is deleted.
namespace DynamoKV

open Antichain

variable {α : Type} {cfg : Config} {s s' : State α} {l : Label α} {k : Key}

section Store

def Message.Erases (r : NodeId) (k : Key) (m : Message α) : Prop :=
  ∃ i, m = .delete i r (some k)

theorem covers_reconcile {vs : List (Version α)} (h : Covers vs v) (w : Version α) :
    Covers (reconcile vs w) v :=
  reconcile_eq_insertMax vs w ▸ h.insertMax w

theorem reconcile_covers_self (vs : List (Version α)) (w : Version α) :
    Covers (reconcile vs w) w :=
  reconcile_eq_insertMax vs w ▸ .insertMax_self vs w

theorem reconcile_ne_nil (vs : List (Version α)) (w : Version α) : reconcile vs w ≠ [] := by
  have ⟨v, hv, _⟩ := reconcile_covers_self vs w
  exact List.ne_nil_of_mem hv

theorem Message.covers_store {m : Message α} (he : ¬m.Erases r k) (h : Covers vs v) :
    Covers (m.store r k vs) v := by
  unfold Message.store
  split
  case h_1 | h_2 =>
    split
    case isTrue  => exact covers_reconcile h _
    case isFalse => exact h
  case h_3 i dest key =>
    split
    case isTrue hk => exact (he ⟨i, by rw [hk.left, hk.right]⟩).elim
    case isFalse   => exact h
  case h_4 => exact h

theorem covers_step (h : step cfg s l = some s') (he : ∀ m ∈ s.delivered l, ¬m.Erases r k)
    (hv : Covers ((s.node r).getLocal k) v) : Covers ((s'.node r).getLocal k) v := by
  rw [getLocal_step h]
  cases hd : s.delivered l
  case none   => exact hv
  case some m => exact m.covers_store (he m hd) hv

-- A put's version is covered wherever it has been executed just now.
theorem covers_of_delivered (h : step cfg s l = some s')
    (hd : s.delivered l = some (.put i r (some k) v)) : Covers ((s'.node r).getLocal k) v := by
  rw [getLocal_step h, hd]
  simp only [Option.elim, Message.store, and_self, if_true]
  exact reconcile_covers_self _ v

theorem CleanState.not_erases (c : CleanState s) (hd : ∀ d ∈ s.deletes, d.key ≠ k) :
    ∀ m ∈ s.delivered l, ¬m.Erases r k := by
  rintro _ hm ⟨i, rfl⟩
  have ⟨del, hi, hk⟩ := c.delete (mem_net_of_delivered hm)
  exact hd del (List.mem_of_getElem? hi) (Option.some.inj hk).symm

end Store

namespace Put

variable {p : Put s k} {p' : Put s' k}

-- A replica which acknowledges a put has executed it before, or does so now.
theorem handled_of_step (c : CleanState s) (h : step cfg s l = some s') {p' : Put s' k}
    (hr : (r, ()) ∈ p'.write.call.handled) :
    (∃ p : Put s k, p.Continues cfg l p' ∧ (r, ()) ∈ p.write.call.handled) ∨
    s.delivered l = some (.put p'.index r (some k) p'.version) := by
  rcases p'.continues_or_minted h with ⟨p, e⟩ | ⟨op, _, _, hm, _⟩
  · rcases e.op.ack_of p.wrote p'.wrote hr with hr | ⟨m, again, key, v, rfl, hn⟩
    · exact .inl ⟨p, e, hr⟩
    · have ⟨op, w, ho, hw, hk, hv⟩ := c.put (List.mem_of_getElem? hn)
      obtain rfl : op = p.op := Option.some.inj (ho.symm.trans p.mem)
      obtain rfl : w = p.write := Option.some.inj (hw.symm.trans p.wrote)
      refine .inr ?_
      rw [State.delivered, hn, hk, hv, p.key, e.index, e.version]
      rfl
  · rw [hm.handled] at hr
    contradiction

-- What a put has left at a replica stays covered there, as long as nothing erases it.
theorem covers_of_step (c : CleanState s) (h : step cfg s l = some s')
    (he : ∀ m ∈ s.delivered l, ¬m.Erases r k)
    (hi : ∀ p : Put s k, (r, ()) ∈ p.write.call.handled →
      Covers ((s.node r).getLocal k) p.version) {p' : Put s' k}
    (hr : (r, ()) ∈ p'.write.call.handled) : Covers ((s'.node r).getLocal k) p'.version := by
  rcases p'.handled_of_step c h hr with ⟨p, e, hr⟩ | hd
  · exact e.version ▸ covers_step h he (hi p hr)
  · exact covers_of_delivered h hd

theorem isPut (d : Sound cfg s) (p : Put s k) : p.op.request.isPut := by
  have ⟨value, hq, _⟩ := ((d.valid p.mem).wrote p.wrote).put
  rw [hq, Request.isPut]

theorem reached_of_acked (d : Sound cfg s) {p : Put s k} (h : p.op.Acked) :
    p.write.call.Reached (cfg.writeThreshold p.op.prefs) := by
  have ⟨o, ho, v, hv⟩ := h
  have ⟨w, hw, _, hr⟩ := ((d.valid p.mem).answered ho).put (p.isPut d) hv
  exact Option.some.inj (hw.symm.trans p.wrote) ▸ hr

theorem exists_of_acked (d : Sound cfg s) {i : Nat} {op : Op α} (ho : s.ops[i]? = some op)
    (hk : op.key = k) (hp : op.request.isPut) (ha : op.Acked) :
    ∃ p : Put s k, p.index = i ∧ op.version = some p.version := by
  have ⟨o, hout, v, hv⟩ := ha
  have ⟨w, hw, _⟩ := ((d.valid ho).answered hout).put hp hv
  exact ⟨⟨i, op, w, ho, hk, hw⟩, rfl, by rw [Op.version, hw]; rfl⟩

theorem handled_of_mem_acks {p : Put s k} (h : r ∈ p.acks cfg) :
    (r, ()) ∈ p.write.call.handled := by
  obtain ⟨x, hx, rfl⟩ := List.mem_map.mp h
  exact QuorumCall.handled_of_mem_successes hx

-- The acknowledgements that count are fixed once a put is acknowledged.
theorem Continues.acks (q : cfg.Quorum) (d : Sound cfg s) (e : p.Continues cfg l p')
    (h : p.op.Acked) : p'.acks cfg = p.acks cfg := by
  rw [Put.acks, Put.acks, e.op.prefs]
  have ht := writeThreshold_pos q (d.valid p.mem).prefs
  rw [e.write.call.successes ht (reached_of_acked d h)]

-- What was acknowledged before an operation which exists already was acknowledged before the step.
theorem ackedBefore_of_step (d : Sound cfg s) (h : step cfg s l = some s') {p' : Put s' k}
    {g g' : Op α} (hg : s.ops[i]? = some g) (eg : OpStep cfg s l i g g')
    (ha : p'.op.AckedBefore g') :
    ∃ p : Put s k, p.Continues cfg l p' ∧ p.op.AckedBefore g := by
  have ⟨⟨o, ho, hv⟩, o', ho', ht⟩ := ha
  obtain rfl : o = o' := Option.some.inj (ho.symm.trans ho')
  have hlt : o.time < s.time := ht.trans (eg.started ▸ (d.valid hg).started)
  rcases p'.continues_or_minted h with ⟨p, e⟩ | ⟨op, _, _, hm, e⟩
  · rcases e.op.outcome_of ho with ho | ⟨_, hs, _⟩
    · exact ⟨p, e, ⟨o, ho, hv⟩, o, ho, eg.started ▸ ht⟩
    · omega
  · have hn : op.outcome = none := by simpa using hm.finished.left
    rcases e.outcome_of ho with ho | ⟨_, hs, _⟩
    · simp [hn] at ho
    · omega

end Put

-- Without deletes, replicas keep what they have acknowledged, or something above it.
structure Kept (cfg : Config) (k : Key) (s : State α) : Prop where
  deletes : ∀ d ∈ s.deletes, d.key ≠ k
  stored  : ∀ {p : Put s k}, (r, ()) ∈ p.write.call.handled →
    Covers ((s.node r).getLocal k) p.version
  read    : ∀ {p : Put s k} {i : Nat} {g : Op α}, s.ops[i]? = some g → g.key = k →
    p.op.AckedBefore g → x ∈ g.read.handled → x.1 ∈ p.acks cfg → Covers x.2 p.version

namespace Kept

theorem initial : Kept cfg k (State.initial : State α) where
  deletes d hd := by simp [State.initial] at hd
  stored {_ p} := absurd p.mem (by simp [State.initial])
  read {_ p}   := absurd p.mem (by simp [State.initial])

theorem not_erases (kp : Kept cfg k s) (d : Sound cfg s) :
    ∀ m ∈ s.delivered l, ¬m.Erases r k :=
  d.clean.not_erases kp.deletes

theorem step (q : cfg.Quorum) (d : Sound cfg s) (kp : Kept cfg k s) (hl : NoDelete k l)
    (h : DynamoKV.step cfg s l = some s') : Kept cfg k s' := by
  refine ⟨?deletes, ?stored, ?read⟩
  case deletes =>
    intro del hm hk
    have ⟨i, hi⟩ := List.getElem?_of_mem hm
    rcases deleteStep_or_started h hi with ⟨del₀, hd, e⟩ | hs
    · exact kp.deletes del₀ (List.mem_of_getElem? hd) (e.key ▸ hk)
    · exact hl <| by rw [hs.label, Label.startsDelete, hk]
  case stored =>
    exact fun hr => Put.covers_of_step d.clean h (kp.not_erases d) (fun _ => kp.stored) hr
  case read =>
    intro x p' i g' hg' hk ha hx hr
    rcases opStep_or_started h hg' with ⟨g, hg, eg⟩ | hs
    · have ⟨p, e, ha⟩ := p'.ackedBefore_of_step d h hg eg ha
      rw [e.acks q d ha.left] at hr
      rw [e.version]
      rw [eg.key] at hk
      rcases eg.answer_of hx with hx | ⟨_, _, hx⟩
      · exact kp.read hg hk ha hx hr
      · rw [hx, (d.clean.ops hg).answer, hk]
        exact kp.stored (Put.handled_of_mem_acks hr)
    · have ⟨_, _, hr⟩ := hs.read
      simp [hr, QuorumCall.submit] at hx

theorem of_reachable {P : State α → Label α → Prop} (q : cfg.Quorum)
    (r : (cluster cfg α).Reachable P s) (hc : ∀ s l, P s l → l.CleanKey)
    (hd : ∀ s l, P s l → NoDelete k l) : Kept cfg k s :=
  r.invariant (fun _ hs => hs ▸ initial) fun _ _ _ r hp h kp =>
    kp.step q (.of_reachable q r hc) (hd _ _ hp) h

end Kept

-- Some reply comes from a replica whose acknowledgement counts.
theorem exists_overlap (q : cfg.Quorum) (d : Sound cfg s) {p : Put s k} {i : Nat} {g : Op α}
    (hg : s.ops[i]? = some g) (hk : g.key = k) (ha : p.op.Acked)
    (hr : g.read.Reached (cfg.readThreshold g.prefs)) :
    ∃ x ∈ g.read.successes (cfg.readThreshold g.prefs), x.1 ∈ p.acks cfg := by
  have hp := (d.valid p.mem).prefs
  have hpg : g.prefs = p.op.prefs := by
    have := (d.valid hg).prefs
    rw [hk, ← p.key, hp] at this
    exact (Option.some.inj this).symm
  rw [hpg] at hr ⊢
  exact hr.exists_overlap (Put.reached_of_acked d ha) (hpg ▸ List.Subset.refl _)
    ((d.valid p.mem).wrote p.wrote).prefs (length_lt_thresholds q hp)

theorem Kept.covers (kp : Kept cfg k s) (q : cfg.Quorum) (d : Sound cfg s) {p : Put s k}
    {i : Nat} {g : Op α}
    (hg : s.ops[i]? = some g) (hk : g.key = k) (ha : p.op.AckedBefore g)
    (hr : g.read.Reached (cfg.readThreshold g.prefs)) :
    Covers (mergeReplies <| g.replies cfg) p.version := by
  have ⟨x, hx, hxr⟩ := exists_overlap q d hg hk ha.left hr
  have hc := kp.read hg hk ha (QuorumCall.handled_of_mem_successes hx) hxr
  exact mergeReplies_covers (List.mem_map_of_mem hx) hc

section Versions

-- A put makes a version above all that it has read.
theorem Put.lt_version (d : Sound cfg s) (p : Put s k) (h : v ∈ p.write.merged) :
    v < p.version := by
  have ⟨value, _, hv⟩ := ((d.valid p.mem).wrote p.wrote).put
  rw [version, hv]
  exact VectorClock.lt_merge_incremented (List.mem_map_of_mem h) _

theorem Kept.covers_merged (kp : Kept cfg k s) (q : cfg.Quorum) (d : Sound cfg s) {p p' : Put s k}
    (ha : p.op.AckedBefore p'.op) : Covers p'.write.merged p.version := by
  have hw := (d.valid p'.mem).wrote p'.wrote
  rw [hw.merged]
  exact kp.covers q d p'.mem p'.key ha hw.read

theorem Kept.lt (kp : Kept cfg k s) (q : cfg.Quorum) (d : Sound cfg s) {p p' : Put s k}
    (ha : p.op.AckedBefore p'.op) : p.version < p'.version := by
  have ⟨x, hx, hle⟩ := kp.covers_merged q d ha
  exact hle.trans_lt <| p'.lt_version d hx

end Versions
end DynamoKV

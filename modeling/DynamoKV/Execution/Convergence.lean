import DynamoKV.Execution.Handoff
import DynamoKV.Execution.Provenance
import DynamoKV.Execution.ReplicaWrites

-- Replicas of a key that is not deleted agree as soon as nothing is under way, whatever the order
-- of its puts was and whichever of them have failed. Quorums do not need to overlap for that.
namespace DynamoKV

open Antichain

variable {α : Type} {cfg : Config} {s s' : State α} {l : Label α} {k : Key}

section Restrictions

-- A flush brings the version to the node, or one above it.
def Message.Brings (t : NodeId) (k : Key) (v : Version α) : Message α → Prop
  | .flush _ dest _ (some key) u => dest = t ∧ key = k ∧ v ≤ u
  | _                            => False

instance {v : Version α} : DecidablePred (Message.Brings t k v)
  | .flush _ dest _ (some key) u => inferInstanceAs (Decidable (dest = t ∧ key = k ∧ v ≤ u))
  | .flush _ _ _ none _ | .put _ _ _ _ | .delete _ _ _ | .hint _ _ _ _ | .flushed _ _ _ =>
    inferInstanceAs (Decidable False)

def Flushing (s : State α) (t : NodeId) (k : Key) (v : Version α) : Prop :=
  ∃ m ∈ s.net, m.Brings t k v

-- All hints which are cleared when the message arrives are stored by their target, or will be.
def Message.ClearsBrought (k : Key) (s : State α) : Message α → Prop
  | .flushed g t hintKey => hintKey = k → ∀ u ∈ (s.node g).hintStore.pending t k,
      Covers ((s.node t).getLocal k) u ∨ Flushing s t k u
  | _ => True

-- The hint remains if the message gets lost.
def Message.StaysHinted (k : Key) (s : State α) : Message α → Prop
  | .flush g t hintKey _ u => hintKey = k → Covers ((s.node g).hintStore.pending t k) u
  | _                      => True

instance : DecidablePred (Message.ClearsBrought k s)
  | .flushed g t hintKey => inferInstanceAs (Decidable (hintKey = k →
      ∀ u ∈ (s.node g).hintStore.pending t k,
        (∃ y ∈ (s.node t).getLocal k, u ≤ y) ∨ ∃ m ∈ s.net, m.Brings t k u))
  | .put _ _ _ _ | .delete _ _ _ | .hint _ _ _ _ | .flush _ _ _ _ _ => isTrue trivial

instance : DecidablePred (Message.StaysHinted k s)
  | .flush g t hintKey _ u => inferInstanceAs (Decidable (hintKey = k →
      ∃ y ∈ (s.node g).hintStore.pending t k, u ≤ y))
  | .put _ _ _ _ | .delete _ _ _ | .hint _ _ _ _ | .flushed _ _ _ => isTrue trivial

-- A flush clears only what it brings to its target, and may fail as long as nothing was cleared.
def SafeFlush (k : Key) (s : State α) (l : Label α) : Prop :=
  (∀ m ∈ s.delivered l, m.ClearsBrought k s) ∧ ∀ m ∈ s.lost l, m.StaysHinted k s

abbrev ConvergeRun (k : Key) (s : State α) (l : Label α) : Prop :=
  NoDelete k l ∧ HintsAccepted k s l ∧ SafeFlush k s l ∧ l.CleanKey

instance : Decidable (SafeFlush k s l) :=
  inferInstanceAs (Decidable ((∀ m ∈ s.delivered l, _) ∧ ∀ m ∈ s.lost l, _))

-- Nothing of the key is in flight or hinted, and no replica write of a put has yet to complete.
structure Settled (k : Key) (s : State α) : Prop where
  sent   : ∀ m ∈ s.net, ∀ v, ¬m.Carries k v
  hinted : ∀ g t, (s.node g).hintStore.pending t k = []
  puts   : ∀ op ∈ s.ops, op.key = k → ∀ w ∈ op.write, ¬w.Active

theorem settled_iff : Settled k s ↔ s.sentVersions k = [] ∧ s.hintedVersions k = [] ∧
    ∀ op ∈ s.ops, op.key = k → ∀ w ∈ op.write, ¬w.Active := by
  rw [State.sentVersions_eq_nil, State.hintedVersions_eq_nil]
  exact ⟨fun ⟨h₁, h₂, h₃⟩ => ⟨h₁, h₂, h₃⟩, fun ⟨h₁, h₂, h₃⟩ => ⟨h₁, h₂, h₃⟩⟩

instance : Decidable (Settled k s) :=
  decidable_of_iff _ settled_iff.symm

end Restrictions

section Flushing

theorem Message.Brings.flush {m : Message α} (h : m.Brings t k v) :
    ∃ g hintKey u, m = .flush g t hintKey (some k) u ∧ v ≤ u := by
  unfold Brings at h
  split at h
  case h_2 => contradiction
  case h_1 g dest hintKey key u =>
    obtain ⟨rfl, rfl, hle⟩ := h
    exact ⟨g, hintKey, u, rfl, hle⟩

theorem Flushing.mono (h : Flushing s t k u) (hle : v ≤ u) : Flushing s t k v := by
  obtain ⟨m, hm, hb⟩ := h
  obtain ⟨g, hintKey, w, rfl, hw⟩ := hb.flush
  exact ⟨_, hm, rfl, rfl, hle.trans hw⟩

-- What a flush brings arrives, unless it gets lost.
theorem Flushing.step (hb : Flushing s t k v) (h : DynamoKV.step cfg s l = some s') :
    Flushing s' t k v ∨ Covers ((s'.node t).getLocal k) v ∨ ∃ m ∈ s.lost l, m.Brings t k v := by
  obtain ⟨m, hm, hv⟩ := hb
  rcases mem_net_step h hm with hm' | ht
  · exact .inl ⟨m, hm', hv⟩
  · rcases State.delivered_or_lost ht with hd | hl
    · obtain ⟨g, hintKey, u, rfl, hle⟩ := hv.flush
      exact .inr <| .inl <| (covers_of_flushed h hd).mono hle
    · exact .inr <| .inr ⟨m, hl, hv⟩

-- A hint remains if its flush gets lost.
theorem hinted_of_lost (c : CleanState s) (h : step cfg s l = some s') (hf : SafeFlush k s l)
    {m : Message α} (hm : s.lost l = some m) (hb : m.Brings t k v) : Hinted s' t k v := by
  obtain ⟨g, hintKey, u, rfl, hle⟩ := hb.flush
  have hnet : .flush g t hintKey (some k) u ∈ s.net := by
    cases l <;> simp only [State.lost, reduceCtorEq] at hm
    exact List.mem_of_getElem? hm
  have hk : hintKey = k := (Option.some.inj (c.flush hnet).right).symm
  have hc : Covers ((s.node g).hintStore.pending t k) u := hf.right _ hm hk
  rcases hints_step h with hg | ⟨_, _, _, hd, _⟩
  · exact .held <| (hg g).covers <| hc.mono hle
  · cases l <;> simp [State.lost, State.delivered] at hm hd

end Flushing

section Invariant

theorem Op.Placed.of_reachable {P : State α → Label α → Prop}
    (r : (cluster cfg α).Reachable P s) : ∀ op ∈ s.ops, op.Placed cfg := by
  refine r.invariant (I := fun s => ∀ op ∈ s.ops, op.Placed cfg) (fun s hs => ?init)
    fun s l s' _ _ h hp op' hm => ?step
  case init => simp [show s = .initial from hs, State.initial]
  case step =>
    obtain ⟨i, ho⟩ := List.getElem?_of_mem hm
    rcases opStep_or_started h ho with ⟨op, ho, e⟩ | hs
    · exact (hp op <| List.mem_of_getElem? ho).step e
    · exact .of_started hs

-- Each put has reached all preferred nodes, or somebody still has to bring it there.
structure Spread (cfg : Config) (k : Key) (s : State α) : Prop where
  placed  : ∀ op ∈ s.ops, op.Placed cfg
  deletes : ∀ d ∈ s.deletes, d.key ≠ k
  stored  : ∀ {p : Put s k}, (r, ()) ∈ p.write.call.handled →
    Covers ((s.node r).getLocal k) p.version
  reaches : ∀ p : Put s k, ∀ r ∈ p.op.prefs, Covers ((s.node r).getLocal k) p.version ∨
    Hinted s r k p.version ∨ Flushing s r k p.version ∨ p.Waits r

namespace Spread

theorem initial : Spread cfg k (State.initial : State α) where
  placed        := by simp [State.initial]
  deletes       := by simp [State.initial]
  stored {_ p}  := absurd p.mem (by simp [State.initial])
  reaches p     := absurd p.mem (by simp [State.initial])

variable (c : CleanState s) (h : DynamoKV.step cfg s l = some s') (sp : Spread cfg k s)
include c h sp

omit c h in
theorem put_placed (p : Put s k) : cfg.preferenceList k = some p.op.prefs ∧
    p.write.hintHolder = cfg.hintHolder k p.op.prefs := by
  have hp := sp.placed p.op <| List.mem_of_getElem? p.mem
  have prefs  := hp.prefs
  have holder := hp.holder p.write p.wrote
  rw [p.key] at prefs holder
  exact ⟨prefs, holder⟩

theorem covers_step (hc : Covers ((s.node r).getLocal k) v) :
    Covers ((s'.node r).getLocal k) v :=
  DynamoKV.covers_step h (c.not_erases sp.deletes) hc

-- A replica write which completes has been executed, or it leaves a hint.
theorem covers_or_hinted_of_completed {p : Put s k} {p' : Put s' k} (e : p.Continues cfg l p')
    (hh : cfg.hintHolder k p.op.prefs = some g) (hr : r ≠ g)
    (hw : r ∉ p.write.call.completed.map Prod.fst)
    (hw' : r ∈ p'.write.call.completed.map Prod.fst) :
    Covers ((s.node r).getLocal k) p.version ∨ Hinted s' r k p.version := by
  have ⟨ok, hl, hc⟩ := e.op.completed_of p.wrote p'.wrote hw' |>.resolve_left hw
  cases ok
  case true =>
    obtain ⟨⟨r', u⟩, hx, rfl⟩ := List.mem_map.mp <| hc.handled rfl
    exact .inl <| sp.stored hx
  case false =>
    subst hl
    have hs := hinted_of_failed (c.ops p.mem) h p.mem p.wrote ((sp.put_placed p).right.trans hh) hr
    rw [p.key] at hs
    exact .inr hs

theorem step_reaches (hn : 0 < cfg.n) (hs : cfg.Spare) (ha : HintsAccepted k s l)
    (hf : SafeFlush k s l) (p' : Put s' k) (hr : r ∈ p'.op.prefs) :
    Covers ((s'.node r).getLocal k) p'.version ∨ Hinted s' r k p'.version ∨
      Flushing s' r k p'.version ∨ p'.Waits r := by
  have flushing {v} (hb : Flushing s r k v) : Covers ((s'.node r).getLocal k) v ∨
      Hinted s' r k v ∨ Flushing s' r k v := by
    rcases hb.step h with hb | hc | ⟨m, hm, hb⟩
    · exact .inr <| .inr hb
    · exact .inl hc
    · exact .inr <| .inl <| hinted_of_lost c h hf hm hb
  have settle {v} (hc : Covers ((s'.node r).getLocal k) v ∨ Hinted s' r k v ∨ Flushing s' r k v) :
      Covers ((s'.node r).getLocal k) v ∨ Hinted s' r k v ∨ Flushing s' r k v ∨ p'.Waits r :=
    hc.imp_right <| Or.imp_right .inl
  rcases p'.continues_or_minted h with ⟨p, e⟩ | ⟨op, ho, hk, hm, e⟩
  · rw [e.op.prefs] at hr
    rw [e.version]
    rcases sp.reaches p r hr with hc | hh | hb | hw
    · exact .inl <| sp.covers_step c h hc
    · rcases hh.step h fun m hm g u he => ha m hm <| he ▸ rfl with hh | ⟨g, hd, u, hu, hle⟩
      · exact .inr <| .inl hh
      · rcases hf.left _ hd rfl u hu with hc | ⟨m, hm, hb⟩
        · exact .inl <| sp.covers_step c h <| hc.mono hle
        · exact settle <| flushing <| Flushing.mono ⟨m, hm, hb⟩ hle
    · exact settle <| flushing hb
    · by_cases hc : r ∈ p'.write.call.completed.map Prod.fst
      case neg => exact .inr <| .inr <| .inr ⟨e.write.call.prefs ▸ hw.left, hc⟩
      case pos =>
        have ⟨g, hh, hng⟩ := hs.exists_hintHolder hn (sp.put_placed p).left
        have hne : r ≠ g := fun he => hng <| he ▸ hr
        refine (sp.covers_or_hinted_of_completed c h e hh hne hw.right hc).imp
          (sp.covers_step c h) .inl
  · subst hk
    rw [e.prefs] at hr
    have ⟨_, hh, _⟩ := hs.exists_hintHolder hn (sp.placed op <| List.mem_of_getElem? ho).prefs
    by_cases hd : r ∈ p'.write.call.prefs
    case neg =>
      exact .inr <| .inl <| hinted_of_minted (c.ops ho) h ho e hm.fresh p'.wrote hh hr hd
    case pos =>
      obtain ⟨down, merged, value, _, _, _, hw⟩ := e.write_eq hm.fresh p'.wrote
      exact .inr <| .inr <| .inr ⟨hd, by simp [hw, Op.startWrite, QuorumCall.submit]⟩

theorem step (hn : 0 < cfg.n) (hs : cfg.Spare) (hl : ConvergeRun k s l)
    (hp : ∀ op ∈ s'.ops, op.Placed cfg) : Spread cfg k s' where
  placed        := hp
  deletes d hm hk := by
    have ⟨i, hi⟩ := List.getElem?_of_mem hm
    rcases deleteStep_or_started h hi with ⟨d₀, hd, e⟩ | hst
    · exact sp.deletes d₀ (List.mem_of_getElem? hd) (e.key ▸ hk)
    · exact hl.left <| by rw [hst.label, Label.startsDelete, hk]
  stored hr      := Put.covers_of_step c h (c.not_erases sp.deletes) (fun _ => sp.stored) hr
  reaches p _ hr := sp.step_reaches c h hn hs hl.right.left hl.right.right.left p hr

end Spread

theorem Spread.of_reachable (hn : 0 < cfg.n) (hs : cfg.Spare)
    (r : (cluster cfg α).Reachable (ConvergeRun k) s) : Spread cfg k s := by
  refine r.invariant (fun _ hi => hi ▸ initial) fun s _ _ r hp h sp => ?_
  have t := Traced.of_reachable r fun _ _ h => h.right.right.right
  exact sp.step t.clean h hn hs hp <| Op.Placed.of_reachable <| r.step hp h

end Invariant

section Converged

def Put.versions (s : State α) (k : Key) : Set (Version α) :=
  Set.range (Put.version : Put s k → Version α)

-- All preferred nodes store the versions which no other put has superseded. That is what every read
-- gets from any of them.
structure Converged (cfg : Config) (k : Key) (s : State α) : Prop where
  stored : ∀ prefs, cfg.preferenceList k = some prefs → ∀ r ∈ prefs,
    IsFrontier (Put.versions s k) ((s.node r).getLocal k)
  reads  : ∀ prefs, cfg.preferenceList k = some prefs → ∀ rs ⊆ prefs, ∀ rs' ⊆ prefs, rs ≠ [] →
    rs' ≠ [] → SameClocks (mergeReplies <| rs.map fun r => (s.node r).getLocal k)
      (mergeReplies <| rs'.map fun r => (s.node r).getLocal k)

theorem Converged.of_stored (h : ∀ prefs, cfg.preferenceList k = some prefs → ∀ r ∈ prefs,
    IsFrontier (Put.versions s k) ((s.node r).getLocal k)) : Converged cfg k s where
  stored := h
  reads prefs hp rs hs rs' hs' hn hn' := by
    have frontier {rs : List NodeId} (hs : rs ⊆ prefs) (hn : rs ≠ []) :
        IsFrontier (Put.versions s k) (mergeReplies <| rs.map fun r => (s.node r).getLocal k) := by
      rw [mergeReplies_eq_insertAll]
      refine .insertAll (fun vs hvs => ?_) (List.map_eq_nil_iff.not.mpr hn)
      obtain ⟨r, hr, rfl⟩ := List.mem_map.mp hvs
      exact h prefs hp r (hs hr)
    exact sameClocks_iff.mpr <| (frontier hs hn).sameClasses (frontier hs' hn')

theorem Spread.converged (sp : Spread cfg k s) (t : Traced s) (a : Antichains s)
    (settled : Settled k s) : Converged cfg k s := by
  refine .of_stored fun prefs hprefs n hp => ?_
  refine ⟨a.stored n k, ?covers, fun v hv => t.around (.stored hv)⟩
  case covers =>
    rintro _ ⟨p, rfl⟩
    have hpp := Option.some.inj <| hprefs.symm.trans (sp.put_placed p).left
    rcases sp.reaches p n (hpp ▸ hp) with hc | hh | ⟨m, hm, hb⟩ | hw
    · exact hc
    · cases hh
      case held hc =>
        have ⟨_, hu, _⟩ := hc
        simp [settled.hinted] at hu
      case sent hm _ => exact absurd ⟨rfl, rfl⟩ <| settled.sent _ hm _
    · obtain ⟨_, _, _, rfl, _⟩ := hb.flush
      exact absurd ⟨rfl, rfl⟩ <| settled.sent _ hm _
    · exact absurd hw.active <| settled.puts _ (List.mem_of_getElem? p.mem) p.key _ p.wrote

theorem converged_of_settled (hn : 0 < cfg.n) (hs : cfg.Spare)
    (r : (cluster cfg α).Reachable (ConvergeRun k) s) (settled : Settled k s) :
    Converged cfg k s := by
  have t := Traced.of_reachable r fun _ _ h => h.right.right.right
  exact (Spread.of_reachable hn hs r).converged t (Antichains.of_reachable r) settled

end Converged

section Example

-- "a" and "b" put values at the same time while they believe "c" to be down. "d" holds both hints
-- and clears them after the first one was stored, when the second one is still on its way.
def concurrentThenFlush : List (Label Nat) := [
  .invoke "a" "k" (.put 7), .read 0 "a", .readDone 0 "a" true, .invoke "b" "k" (.put 8),
  .read 1 "b", .readDone 1 "b" true, .putWrite 0 ["c"], .putWrite 1 ["c"], .deliver 0 false,
  .deliver 0 false, .deliver 0 false, .deliver 0 false, .deliver 0 false, .deliver 0 false,
  .writeDone 0 "a" true, .writeDone 0 "b" true, .writeDone 1 "a" true, .writeDone 1 "b" true,
  .flush "d" "c", .deliver 0 false, .deliver 1 false, .deliver 0 false]

abbrev afterConcurrentThenFlush : State Nat :=
  (cluster (.ofNodes ["a", "b", "c", "d"] 3 1 1) Nat).after (ConvergeRun "k") .initial
    concurrentThenFlush

set_option maxRecDepth 100000 in
theorem converged_of_settled_flushed : ∃ s : State Nat, Settled "k" s ∧
    ((s.node "c").getLocal "k").map (·.value) = [7, 8] ∧
    Converged (.ofNodes ["a", "b", "c", "d"] 3 1 1) "k" s := by
  have hs : Config.Spare (.ofNodes ["a", "b", "c", "d"] 3 1 1) :=
    ⟨by decide, HashRing.injOn_byFirstLetter fun _ hm => hm⟩
  have settled : Settled "k" afterConcurrentThenFlush := by decide
  exact ⟨_, settled, by decide, converged_of_settled (by decide) hs (.after rfl _) settled⟩

end Example
end DynamoKV

import DynamoKV.Execution.Convergence
import DynamoKV.Execution.Isolation

-- From every state a cluster can get into it can settle without its clients: replica requests time
-- out, the messages in flight arrive, and what is hinted is flushed.
namespace DynamoKV

open Antichain TransitionSystem

variable {α : Type} {cfg : Config} {s s' : State α} {l : Label α} {k : Key}

-- No requests are made and nothing gets lost.
def Label.Recovers : Label α → Prop
  | .writeDone _ _ ok => ok = false
  | .deliver _ again  => again = false
  | .flush _ _        => True
  | _                 => False

abbrev RecoveryRun (k : Key) (s : State α) (l : Label α) : Prop :=
  ConvergeRun k s l ∧ l.Recovers

section Steps

theorem Label.Recovers.lost (hl : l.Recovers) : s.lost l = none := by
  cases l <;> first | rfl | exact hl.elim

theorem Label.Recovers.not_putWrite (hl : l.Recovers) : l ≠ .putWrite i down := by
  rintro rfl
  exact hl

theorem Label.Recovers.not_started (hl : l.Recovers) : ¬Started cfg s l i op := by
  intro hs
  rw [hs.label] at hl
  exact hl

theorem recoveryRun (hl : l.Recovers) (hd : ∀ m ∈ s.delivered l, m.ClearsBrought k s) :
    RecoveryRun k s l := by
  have hn : s.lost l = none := hl.lost
  refine ⟨⟨?_, by simp [HintsAccepted, hn], ⟨hd, by simp [hn]⟩, ?_⟩, hl⟩ <;>
    cases l <;> first | exact hl.elim | trivial | exact nofun

-- No replica write of a put to the key has yet to complete.
def Idle (k : Key) (s : State α) : Prop :=
  ∀ op ∈ s.ops, op.key = k → ∀ w ∈ op.write, ¬w.Active

theorem Idle.step (hi : Idle k s) (h : DynamoKV.step cfg s l = some s') (hl : l.Recovers) :
    Idle k s' := by
  intro op' hm hk w' hw' ha
  obtain ⟨i, ho'⟩ := List.getElem?_of_mem hm
  rcases opStep_or_started h ho' with ⟨op, ho, e⟩ | hs
  · rcases e.write_of hw' with ⟨w, hw, ew⟩ | hmints
    · refine hi op (List.mem_of_getElem? ho) (e.key ▸ hk) w hw ?_
      rw [Write.Active, ew.call.prefs] at ha
      exact ew.call.completed.trans_lt ha
    · obtain ⟨_, he⟩ := hmints.label
      exact hl.not_putWrite he
  · exact hl.not_started hs

theorem versions_step (h : step cfg s l = some s') (hl : l.Recovers) :
    Put.versions s' k = Put.versions s k := by
  refine Set.Subset.antisymm ?_ ?_ <;> rintro _ ⟨p, rfl⟩
  · rcases p.continues_or_minted h with ⟨p₀, e⟩ | ⟨_, _, _, hm, _⟩
    · exact ⟨p₀, e.version.symm⟩
    · obtain ⟨_, he⟩ := hm.label
      exact (hl.not_putWrite he).elim
  · obtain ⟨p', e⟩ := p.exists_continues h
    exact ⟨p', e.version⟩

theorem versions_run (r : (cluster cfg α).Run (RecoveryRun k) s s') :
    Put.versions s' k = Put.versions s k := by
  induction r
  case refl            => rfl
  case tail hp h hi => exact (versions_step h hp.right).trans hi

end Steps

section Writes

-- How many replica writes of the key have yet to complete.
def Op.awaited (k : Key) (op : Op α) : Nat :=
  if op.key = k then op.write.elim 0 fun w => w.call.prefs.length - w.call.completed.length else 0

def State.awaited (k : Key) (s : State α) : Nat :=
  (s.ops.map (Op.awaited k)).sum

theorem awaited_completeWrite {op : Op α} (hk : op.key = k) (hw : op.write = some w)
    (hc : w.call.Completes r ok) : (op.completeWrite r ok).awaited k < op.awaited k := by
  have hlt := hc.completed_lt
  have hk' : (op.completeWrite r ok).key = k := hk
  simp only [Op.awaited, hk, hk', if_true, Op.write_completeWrite hw, hw, Option.elim,
    QuorumCall.prefs_complete, hc.completed, List.length_append, List.length_singleton]
  omega

theorem exists_writeDone (cfg : Config) {op : Op α} (ho : s.ops[i]? = some op) (hk : op.key = k)
    (hw : op.write = some w) (hc : w.call.Completes r ok) :
    ∃ s', step cfg s (.writeDone i r ok) = some s' ∧ s'.awaited k < s.awaited k := by
  have ⟨s₁, hn⟩ : ∃ s₁, s.next cfg (.writeDone i r ok) = some s₁ := by
    simp [State.next, State.writeDone, ho, hw, guard, hc]
  refine ⟨s₁.tick, State.step_eq_some.mpr ⟨s₁, hn, rfl⟩, ?_⟩
  obtain ⟨op', w', ho', hw', _, hs⟩ := State.writeDone_eq_some hn
  cases ho.symm.trans ho'
  cases hw.symm.trans hw'
  have hops : s₁.ops = s.ops.modify i (·.completeWrite r ok) := by
    rcases hs with rfl | ⟨_, _, _, _, rfl⟩ <;> simp [State.modifyOp]
  have hsum := Log.sum_map_modify (Op.awaited k) (·.completeWrite r ok) ho
  have hlt := awaited_completeWrite hk hw hc
  simp only [State.awaited, State.ops_tick, hops]
  omega

theorem Put.nodup_of_reachable {P : State α → Label α → Prop}
    (r : (cluster cfg α).Reachable P s) : ∀ p : Put s k, p.write.call.prefs.Nodup := by
  refine r.invariant (I := fun s => ∀ p : Put s k, p.write.call.prefs.Nodup) (fun s hs p => ?init)
    fun s l s' r _ h hi p' => ?step
  case init => exact absurd p.mem (by simp [show s = .initial from hs, State.initial])
  case step =>
    rcases p'.continues_or_minted h with ⟨p, e⟩ | ⟨op, ho, _, hm, e⟩
    · exact e.write.call.prefs ▸ hi p
    · obtain ⟨down, merged, value, _, _, _, hw⟩ := e.write_eq hm.fresh p'.wrote
      have hp := (Op.Placed.of_reachable r op <| List.mem_of_getElem? ho).prefs
      rw [hw]
      exact (HashRing.getPreferenceList_nodup (HashRing.built_ofNodes ..) hp).filter _

-- All replica writes complete, at the latest when they time out.
theorem exists_idle (r : (cluster cfg α).Reachable (ConvergeRun k) s) :
    ∃ s', (cluster cfg α).Run (RecoveryRun k) s s' ∧
      (cluster cfg α).Reachable (ConvergeRun k) s' ∧ Idle k s' := by
  refine exists_run_of_variant (I := (cluster cfg α).Reachable (ConvergeRun k)) (State.awaited k)
    (fun s r hn => ?_) r
  have ⟨op, hm, hk, w, hw, ha⟩ : ∃ op ∈ s.ops, op.key = k ∧ ∃ w ∈ op.write, w.Active := by
    simpa [Idle] using hn
  obtain ⟨i, ho⟩ := List.getElem?_of_mem hm
  have ⟨n, hc⟩ := QuorumCall.exists_completes (Put.nodup_of_reachable r ⟨i, op, w, ho, hk, hw⟩) ha
  have ⟨s', h, hlt⟩ := exists_writeDone cfg ho hk hw hc
  have hp : RecoveryRun k s (.writeDone i n false) := recoveryRun rfl (by simp [State.delivered])
  exact ⟨s', .single hp h, r.step hp.left h, hlt⟩

end Writes

section Deliveries

def Unsent (k : Key) (s : State α) : Prop :=
  ∀ m ∈ s.net, ∀ v, ¬m.Carries k v

theorem Message.Carries.clearsBrought {m : Message α} (h : m.Carries k v) (k' : Key) (s : State α) :
    m.ClearsBrought k' s := by
  cases m
  case flushed => exact h.elim
  all_goals trivial

theorem exists_deliver (cfg : Config) (hm : s.net[i]? = some m) :
    ∃ s', step cfg s (.deliver i false) = some s' ∧
      s' = ({ s with net := s.net.eraseIdx i }.handle m).tick :=
  ⟨_, State.step_eq_some.mpr ⟨_, State.deliver_eq_some.mpr ⟨m, hm, rfl⟩, rfl⟩, rfl⟩

theorem filterMap_net_handle (s : State α) (m : Message α) (k : Key) :
    (s.handle m).net.filterMap (·.carried k) = s.net.filterMap (·.carried k) := by
  match m with
  | .flush _ _ _ (some _) _ => simp [State.handle, State.send, Message.carried, State.modifyNode]
  | .put _ _ none _ | .delete _ _ none | .hint _ _ none _ | .flush _ _ _ none _
  | .put _ _ (some _) _ | .delete _ _ (some _) | .hint _ _ (some _) _ | .flushed _ _ _ => rfl

-- Messages that carry the key are only answered by messages which do not.
theorem sentVersions_deliver {m : Message α} (hm : s.net[i]? = some m) (hc : m.Carries k v)
    (h : step cfg s (.deliver i false) = some s') :
    (s'.sentVersions k).length < (s.sentVersions k).length := by
  obtain ⟨_, h', rfl⟩ := exists_deliver cfg hm
  cases Option.some.inj <| h.symm.trans h'
  have he : State.sentVersions ({ s with net := s.net.eraseIdx i }.handle m).tick k = _ :=
    filterMap_net_handle _ m k
  rw [he]
  exact Log.length_filterMap_eraseIdx _ hm <| by simp [Message.carried_eq_some.mpr hc]

-- A message of the key can be delivered, unless there is none.
theorem exists_delivery (r : (cluster cfg α).Reachable (ConvergeRun k) s) (hn : ¬Unsent k s) :
    ∃ i m v s', s.net[i]? = some m ∧ m.Carries k v ∧ RecoveryRun k s (.deliver i false) ∧
      step cfg s (.deliver i false) = some s' ∧
      (cluster cfg α).Reachable (ConvergeRun k) s' ∧
      (s'.sentVersions k).length < (s.sentVersions k).length := by
  have ⟨m, hm, v, hc⟩ : ∃ m ∈ s.net, ∃ v, m.Carries k v := by
    simpa [Unsent] using hn
  obtain ⟨i, hi⟩ := List.getElem?_of_mem hm
  obtain ⟨s', h, _⟩ := exists_deliver cfg hi
  have hp : RecoveryRun k s (.deliver i false) := by
    refine recoveryRun rfl fun m' hm' => ?_
    cases Option.some.inj <| hi.symm.trans hm'
    exact hc.clearsBrought k s
  exact ⟨i, m, v, s', hi, hc, hp, h, r.step hp.left h, sentVersions_deliver hi hc h⟩

-- All messages of the key arrive.
theorem exists_unsent (r : (cluster cfg α).Reachable (ConvergeRun k) s) (hi : Idle k s) :
    ∃ s', (cluster cfg α).Run (RecoveryRun k) s s' ∧
      ((cluster cfg α).Reachable (ConvergeRun k) s' ∧ Idle k s') ∧ Unsent k s' := by
  refine exists_run_of_variant
    (I := fun s => (cluster cfg α).Reachable (ConvergeRun k) s ∧ Idle k s)
    (fun s => (s.sentVersions k).length) (fun s hs hn => ?_) ⟨r, hi⟩
  have ⟨_, _, _, s', _, _, hp, h, r', hlt⟩ := exists_delivery hs.left hn
  exact ⟨s', .single hp h, ⟨r', hs.right.step h hp.right⟩, hlt⟩

end Deliveries

section Hints

-- The node holds hints for the key, and the target is one of its replicas.
structure Holds (cfg : Config) (k : Key) (g t : NodeId) : Prop where
  exists_prefs : ∃ prefs, cfg.preferenceList k = some prefs ∧ cfg.hintHolder k prefs = some g ∧
    t ∈ prefs

-- Hints are where they belong, or on their way there.
structure HintsPlaced (cfg : Config) (k : Key) (s : State α) : Prop where
  held : v ∈ (s.node g).hintStore.pending t k → Holds cfg k g t
  sent : .hint g t (some k) v ∈ s.net → Holds cfg k g t

namespace HintsPlaced

theorem of_subset (hp : HintsPlaced cfg k s)
    (held : ∀ g t, (s'.node g).hintStore.pending t k ⊆ (s.node g).hintStore.pending t k)
    (sent : ∀ g t v, .hint g t (some k) v ∈ s'.net → .hint g t (some k) v ∈ s.net) :
    HintsPlaced cfg k s' where
  held hv := hp.held (held _ _ hv)
  sent hm := hp.sent (sent _ _ _ hm)

theorem addHint (hp : HintsPlaced cfg k s) (hg : key = k → Holds cfg k g t) :
    HintsPlaced cfg k (s.modifyNode g (·.addHint t key v)) where
  held hv := by
    rcases State.mem_pending_modifyNode hv with hv' | ⟨rfl, hv'⟩
    · exact hp.held hv'
    · rw [Node.hintStore_addHint] at hv'
      rcases HintStore.mem_pending_add hv' with hv' | ⟨rfl, rfl, _⟩
      · exact hp.held hv'
      · exact hg rfl
  sent hm := hp.sent hm

theorem deliverHint (hp : HintsPlaced cfg k s) (hc : Clean key) (hg : key = k → Holds cfg k g t) :
    HintsPlaced cfg k (s.deliverHint cfg c g t key v) := by
  unfold State.deliverHint
  split
  case isTrue h =>
    subst h
    exact hp.addHint hg
  case isFalse  =>
    refine ⟨hp.held, fun hm => ?_⟩
    rcases List.mem_append.mp hm with hm | hm
    · exact hp.sent hm
    · rw [hc.internalHints, List.mem_singleton] at hm
      cases hm
      exact hg rfl

theorem foldl_deliverHint {ts : List NodeId} (hp : HintsPlaced cfg k s) (hc : Clean key)
    (hg : key = k → ∀ t ∈ ts, Holds cfg k g t) :
    HintsPlaced cfg k (ts.foldl (State.deliverHint · cfg c g · key v) s) := by
  induction ts generalizing s
  case nil          => exact hp
  case cons t ts hi =>
    refine hi (hp.deliverHint hc fun hk => hg hk t <| .head _) fun hk t' ht => ?_
    exact hg hk t' <| .tail _ ht

theorem sendWrites {op : Op α} {w : Write α} (hp : HintsPlaced cfg k s) (hc : Clean op.key)
    (hg : op.key = k → ∀ g ∈ w.hintHolder, ∀ t ∈ ts, Holds cfg k g t) (i : Nat) :
    HintsPlaced cfg k (s.sendWrites cfg i op w ts) := by
  have add {s₁ : State α} (hp : HintsPlaced cfg k s₁) : HintsPlaced cfg k
      ((s₁.modifyOp i ({ · with write := some w })).send <| w.call.prefs.map
        fun dest => .put i dest (cfg.address internalKeys op.coord dest op.key) w.version) := by
    refine hp.of_subset (fun _ _ => List.Subset.refl _) fun g t v hm => ?_
    rcases List.mem_append.mp hm with hm | hm
    · exact hm
    · simp at hm
  unfold State.sendWrites
  cases hw : w.hintHolder
  case none   => exact add hp
  case some g => exact add <| hp.foldl_deliverHint hc fun hk t ht => hg hk g hw t ht

theorem handle {m : Message α} (hp : HintsPlaced cfg k s) (hm : m ∈ s.net) (net : List (Message α))
    (hn : net ⊆ s.net) : HintsPlaced cfg k ({ s with net }.handle m) where
  held hv := by
    rcases State.mem_pending_handle hv with hv | rfl
    · exact hp.held hv
    · exact hp.sent hm
  sent hm' := by
    rcases State.mem_net_handle hm' with hm' | ⟨_, _, _, _, _, _, he⟩
    · exact hp.sent (hn hm')
    · cases he

theorem step (hp : HintsPlaced cfg k s) (c : CleanState s) (placed : ∀ op ∈ s.ops, op.Placed cfg)
    (h : DynamoKV.step cfg s l = some s') : HintsPlaced cfg k s' := by
  obtain ⟨s₁, hn, rfl⟩ := State.step_eq_some.mp h
  suffices HintsPlaced cfg k s₁ from ⟨this.held, this.sent⟩
  cases State.nextStep hn
  case idle => exact ⟨hp.held, hp.sent⟩
  case putWrite i op down merged value ho _ _ _ =>
    refine hp.sendWrites (c.ops ho) (fun hk g hg t ht => ?_) i
    have hpl := placed op <| List.mem_of_getElem? ho
    exact ⟨op.prefs, hk ▸ hpl.prefs, hk ▸ hg, List.filter_subset_self _ ht⟩
  case hint i op w g ok r ho hw hc hg _ _ =>
    have hpl := placed op <| List.mem_of_getElem? ho
    have hp' : HintsPlaced cfg k (s.modifyOp i (·.completeWrite r ok)) := ⟨hp.held, hp.sent⟩
    refine hp'.deliverHint (c.ops ho) fun hk => ⟨op.prefs, hk ▸ hpl.prefs, ?_, ?_⟩
    · exact hk ▸ (hpl.holder w hw).symm.trans hg
    · exact hpl.writes w hw hc.mem
  case invokeDelete =>
    refine hp.of_subset (fun _ _ => List.Subset.refl _) fun g t v hm => ?_
    rcases List.mem_append.mp hm with hm | hm
    · exact hm
    · simp at hm
  case deliver hm =>
    exact hp.handle (List.mem_of_getElem? hm) _ fun _ => State.mem_net_of_rest
  case lose =>
    exact hp.of_subset (fun _ _ => List.Subset.refl _) fun _ _ _ => List.mem_of_mem_eraseIdx
  case flush =>
    refine hp.of_subset (fun _ _ => List.Subset.refl _) fun g t v hm => ?_
    rcases List.mem_append.mp hm with hm | hm
    · exact hm
    · simp at hm

theorem of_reachable {P : State α → Label α → Prop} (r : (cluster cfg α).Reachable P s)
    (hc : ∀ s l, P s l → l.CleanKey) : HintsPlaced cfg k s := by
  refine r.invariant (fun s hs => ?init) fun s _ _ r _ h hp => ?step
  case init => exact hs ▸ ⟨by simp [Node.empty], by simp [State.initial]⟩
  case step => exact hp.step (Traced.of_reachable r hc).clean (Op.Placed.of_reachable r) h

end HintsPlaced
end Hints

section Flushes

-- A flush of the hints for a node is going on, and everything else of the key has arrived.
structure Flushes (k : Key) (g t : NodeId) (s₀ s : State α) : Prop where
  idle     : Idle k s
  held     : ∀ r, (s.node r).hintStore = (s₀.node r).hintStore
  only     : ∀ m ∈ s.net, ∀ v, m.Carries k v → m = .flush g t k (some k) v
  brought  : ∀ u ∈ (s₀.node g).hintStore.pending t k,
    Covers ((s.node t).getLocal k) u ∨ Flushing s t k u
  answered : (∃ v, .flush g t k (some k) v ∈ s.net) ∨ .flushed g t k ∈ s.net

theorem Flushes.start (c : CleanState s) (hi : Idle k s) (hu : Unsent k s)
    (hv : v ∈ (s.node g).hintStore.pending t k) (h : step cfg s (.flush g t) = some s') :
    Flushes k g t s s' := by
  obtain ⟨s₁, hn, he⟩ := State.step_eq_some.mp h
  obtain ⟨ht, rfl⟩ := State.flush_eq_some.mp hn
  have sent {u} (hu : u ∈ (s.node g).hintStore.pending t k) :
      .flush g t k (some k) u ∈ s'.net := by
    have ⟨s₂, h₂, hm⟩ := exists_flush cfg ht.left ht.right hu
    cases Option.some.inj <| h.symm.trans h₂
    rwa [(c.hints hu).internalKeys] at hm
  refine ⟨hi.step h trivial, fun r => he ▸ rfl, fun m hm v hc => ?only, fun u hu => ?brought,
    .inl ⟨v, sent hv⟩⟩
  case only =>
    subst he
    rcases List.mem_append.mp hm with hm | hm
    · exact absurd hc <| hu m hm v
    · obtain ⟨⟨key, vs⟩, hp, hm⟩ := List.mem_flatMap.mp hm
      obtain ⟨u, hu, rfl⟩ := List.mem_map.mp hm
      have hu' : u ∈ (s.node g).hintStore.pending t key := HintStore.mem_pendingFor hp ▸ hu
      rw [(c.hints hu').internalKeys] at hc ⊢
      obtain ⟨rfl, rfl⟩ := hc
      rfl
  case brought => exact .inr ⟨_, sent hu, rfl, rfl, le_rfl⟩

theorem Flushes.deliver {s₀ : State α} (f : Flushes k g t s₀ s) (c : CleanState s)
    (sp : Spread cfg k s) (hm : s.net[i]? = some m) (hc : m.Carries k v)
    (h : step cfg s (.deliver i false) = some s') : Flushes k g t s₀ s' := by
  obtain ⟨s₁, h₁, he⟩ := exists_deliver cfg hm
  cases Option.some.inj <| h.symm.trans h₁
  cases f.only m (List.mem_of_getElem? hm) v hc
  have hnet : s'.net = s.net.eraseIdx i ++ [.flushed g t k] := by
    rw [he]
    rfl
  refine ⟨f.idle.step h rfl, fun r => ?held, fun m hm v hc => ?only, fun u hu => ?brought,
    ?answered⟩
  case held =>
    rw [← f.held r, he, State.node_tick, State.handle, State.node_send, State.node_modifyNode]
    split
    case isTrue hr => exact hr ▸ rfl
    case isFalse   => rfl
  case only =>
    rcases List.mem_append.mp (hnet ▸ hm) with hm | hm
    · exact f.only m (List.mem_of_mem_eraseIdx hm) v hc
    · cases List.mem_singleton.mp hm
      exact hc.elim
  case brought =>
    rcases f.brought u hu with hc | hb
    · exact .inl <| sp.covers_step c h hc
    · rcases hb.step h with hb | hc | ⟨_, hl, _⟩
      · exact .inr hb
      · exact .inl hc
      · cases hl
  case answered =>
    rw [hnet]
    exact .inr <| List.mem_append_right _ <| List.mem_singleton_self _

theorem Flushes.exists_unsent (hn : 0 < cfg.n) (hs : cfg.Spare) {s₀ : State α}
    (r : (cluster cfg α).Reachable (ConvergeRun k) s) (f : Flushes k g t s₀ s) :
    ∃ s', (cluster cfg α).Run (RecoveryRun k) s s' ∧
      ((cluster cfg α).Reachable (ConvergeRun k) s' ∧ Flushes k g t s₀ s') ∧ Unsent k s' := by
  refine exists_run_of_variant
    (I := fun s => (cluster cfg α).Reachable (ConvergeRun k) s ∧ Flushes k g t s₀ s)
    (fun s => (s.sentVersions k).length) (fun s hf hu => ?_) ⟨r, f⟩
  have ⟨_, _, _, s', hm, hc, hp, h, r', hlt⟩ := exists_delivery hf.left hu
  have t  := Traced.of_reachable hf.left fun _ _ h => h.right.right.right
  have sp := Spread.of_reachable hn hs hf.left
  exact ⟨s', .single hp h, ⟨r', hf.right.deliver t.clean sp hm hc h⟩, hlt⟩

-- At the end of a flush the hints may be cleared, as they are all stored by their target.
theorem Flushes.exists_clear (cfg : Config) {s₀ : State α} (f : Flushes k g t s₀ s)
    (hu : Unsent k s) :
    ∃ i s', RecoveryRun k s (.deliver i false) ∧ step cfg s (.deliver i false) = some s' ∧
      Unsent k s' ∧ ∀ r, (s'.node r).hintStore =
        if r = g then (s₀.node g).hintStore.clearKey t k else (s₀.node r).hintStore := by
  have hm : .flushed g t k ∈ s.net :=
    f.answered.resolve_left fun ⟨v, hm⟩ => hu _ hm v ⟨rfl, rfl⟩
  obtain ⟨i, hi⟩ := List.getElem?_of_mem hm
  obtain ⟨s', h, he⟩ := exists_deliver cfg hi
  refine ⟨i, s', recoveryRun rfl fun m hd => ?_, h, fun m hm => ?_, fun r => ?_⟩
  · cases Option.some.inj <| hi.symm.trans hd
    intro _ u hu'
    rw [f.held g] at hu'
    refine .inl <| (f.brought u hu').resolve_right fun ⟨m, hm, hb⟩ => ?_
    obtain ⟨_, _, _, rfl, _⟩ := hb.flush
    exact hu _ hm _ ⟨rfl, rfl⟩
  · subst he
    exact hu m <| List.mem_of_mem_eraseIdx hm
  · rw [← f.held g, ← f.held r, he, State.node_tick, State.handle, State.node_modifyNode]
    split <;> rfl

-- The replicas for which the holder has hints.
def hintedReplicas (cfg : Config) (k : Key) (s : State α) : Finset NodeId :=
  match cfg.preferenceList k with
  | none       => ∅
  | some prefs =>
    match cfg.hintHolder k prefs with
    | none   => ∅
    | some g => prefs.toFinset.filter fun t => (s.node g).hintStore.pending t k ≠ []

theorem exists_flush_clear (hn : 0 < cfg.n) (hs : cfg.Spare)
    (r : (cluster cfg α).Reachable (ConvergeRun k) s) (hi : Idle k s) (hu : Unsent k s)
    (hv : v ∈ (s.node g).hintStore.pending t k) (hg : Holds cfg k g t) :
    ∃ s', (cluster cfg α).Run (RecoveryRun k) s s' ∧ Idle k s' ∧ Unsent k s' ∧
      ∀ r, (s'.node r).hintStore =
        if r = g then (s.node g).hintStore.clearKey t k else (s.node r).hintStore := by
  obtain ⟨prefs, hp, hh, ht⟩ := hg.exists_prefs
  have ⟨_, hh', hng⟩ := hs.exists_hintHolder hn hp
  cases Option.some.inj <| hh.symm.trans hh'
  have hne : t ≠ g := fun he => hng <| he ▸ ht
  have hmem : t ∈ cfg.clusterNodes := by
    have hw : t ∈ cfg.ring.nodes :=
      (HashRing.walked_getPreferenceList (HashRing.built_ofNodes ..) hp).member t ht
    rw [hs.canonical.right] at hw
    exact List.mem_toFinset.mp hw
  obtain ⟨s₁, h₁, _⟩ := exists_flush cfg hmem hne hv
  have p₁ : RecoveryRun k s (.flush g t) := recoveryRun trivial nofun
  have tr := Traced.of_reachable r fun _ _ h => h.right.right.right
  obtain ⟨s₂, r₂, ⟨_, f⟩, hu₂⟩ :=
    (Flushes.start tr.clean hi hu hv h₁).exists_unsent hn hs (r.step p₁.left h₁)
  obtain ⟨i, s₃, p₃, h₃, hu₃, hc⟩ := f.exists_clear cfg hu₂
  exact ⟨s₃, ((Run.single p₁ h₁).trans r₂).tail p₃ h₃, f.idle.step h₃ rfl, hu₃, hc⟩

-- All hints are flushed.
theorem exists_unhinted (hn : 0 < cfg.n) (hs : cfg.Spare)
    (r : (cluster cfg α).Reachable (ConvergeRun k) s) (hi : Idle k s) (hu : Unsent k s) :
    ∃ s', (cluster cfg α).Run (RecoveryRun k) s s' ∧
      ((cluster cfg α).Reachable (ConvergeRun k) s' ∧ Idle k s' ∧ Unsent k s') ∧
      ∀ g t, (s'.node g).hintStore.pending t k = [] := by
  refine exists_run_of_variant
    (I := fun s => (cluster cfg α).Reachable (ConvergeRun k) s ∧ Idle k s ∧ Unsent k s)
    (fun s => (hintedReplicas cfg k s).card) (fun s hs' hne => ?_) ⟨r, hi, hu⟩
  obtain ⟨r, hi, hu⟩ := hs'
  have ⟨g, t, hne⟩ : ∃ g t, (s.node g).hintStore.pending t k ≠ [] := by
    simpa using hne
  obtain ⟨v, hv⟩ := List.exists_mem_of_ne_nil _ hne
  have hg := (HintsPlaced.of_reachable r fun _ _ h => h.right.right.right).held hv
  obtain ⟨s', r', hi', hu', hc⟩ := exists_flush_clear hn hs r hi hu hv hg
  refine ⟨s', r', ⟨r.run <| r'.mono fun _ _ h => h.left, hi', hu'⟩, ?_⟩
  obtain ⟨prefs, hp, hh, ht⟩ := hg.exists_prefs
  simp only [hintedReplicas, hp, hh, hc, if_true]
  refine Finset.card_lt_card <| Finset.ssubset_iff_of_subset (fun x hx => ?_) |>.mpr ⟨t, ?_, ?_⟩
  · rw [Finset.mem_filter] at hx ⊢
    refine ⟨hx.left, fun he => hx.right ?_⟩
    by_cases hxt : x = t
    · simp [hxt]
    · rw [HintStore.pending_clearKey_of_ne (.inl hxt), he]
  · exact Finset.mem_filter.mpr ⟨List.mem_toFinset.mpr ht, hne⟩
  · simp

end Flushes

theorem exists_settled (hn : 0 < cfg.n) (hs : cfg.Spare)
    (r : (cluster cfg α).Reachable (ConvergeRun k) s) :
    ∃ s', (cluster cfg α).Run (RecoveryRun k) s s' ∧ Settled k s' ∧ Converged cfg k s' := by
  obtain ⟨s₁, r₁, hr₁, hi₁⟩ := exists_idle r
  obtain ⟨s₂, r₂, ⟨hr₂, hi₂⟩, hu₂⟩ := exists_unsent hr₁ hi₁
  obtain ⟨s₃, r₃, ⟨hr₃, hi₃, hu₃⟩, hh⟩ := exists_unhinted hn hs hr₂ hi₂ hu₂
  have settled : Settled k s₃ := ⟨hu₃, hh, hi₃⟩
  have t := Traced.of_reachable hr₃ fun _ _ h => h.right.right.right
  have antichains := Antichains.of_reachable hr₃
  have converged := (Spread.of_reachable hn hs hr₃).converged t antichains settled
  exact ⟨s₃, (r₁.trans r₂).trans r₃, settled, converged⟩

-- The cluster can settle, with all versions of the key where they belong.
theorem exists_recovery (hn : 0 < cfg.n) (hs : cfg.Spare)
    (r : (cluster cfg α).Reachable (ConvergeRun k) s) :
    ∃ s', (cluster cfg α).Run (RecoveryRun k) s s' ∧ Settled k s' ∧ Converged cfg k s' ∧
      Put.versions s' k = Put.versions s k := by
  obtain ⟨s', run, settled, converged⟩ := exists_settled hn hs r
  exact ⟨s', run, settled, converged, versions_run run⟩

section Example

-- "a" believes "c" to be down, and the message to "b" gets lost.
def putThenLose : List (Label Nat) := [
  .invoke "a" "k" (.put 7), .read 0 "a", .readDone 0 "a" true, .putWrite 0 ["c"], .deliver 1 false,
  .writeDone 0 "a" true, .putReturn 0, .lose 1]

abbrev afterPutThenLose : State Nat :=
  (cluster (.ofNodes ["a", "b", "c", "d"] 3 1 1) Nat).after (ConvergeRun "k") .initial putThenLose

set_option maxRecDepth 100000 in
theorem exists_recovery_lost : ∃ s s' : State Nat, ¬Settled "k" s ∧
    (∃ op ∈ s.ops[0]?, op.Acked) ∧ (s.node "b").getLocal "k" = [] ∧
    (cluster (.ofNodes ["a", "b", "c", "d"] 3 1 1) Nat).Run (RecoveryRun "k") s s' ∧
    Settled "k" s' ∧ Converged (.ofNodes ["a", "b", "c", "d"] 3 1 1) "k" s' ∧
    Put.versions s' "k" = Put.versions s "k" := by
  have hs : Config.Spare (.ofNodes ["a", "b", "c", "d"] 3 1 1) :=
    ⟨by decide, HashRing.injOn_byFirstLetter fun _ hm => hm⟩
  obtain ⟨s', h⟩ := exists_recovery (s := afterPutThenLose) (k := "k") (by decide) hs (.after rfl _)
  exact ⟨_, s', by decide, by decide, List.eq_nil_of_length_eq_zero (by decide), h⟩

end Example
end DynamoKV

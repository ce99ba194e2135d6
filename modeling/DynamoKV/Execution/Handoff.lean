import DynamoKV.Execution.LastPut
import DynamoKV.Execution.SequentialReads
import DynamoKV.Execution.Theorems.Hints

-- Whether all preferred nodes of a key end up with the put which was acknowledged last, even if
-- they could not be reached at times.
namespace DynamoKV

open Antichain

variable {α : Type} {cfg : Config} {s s' : State α} {l : Label α} {k : Key}

-- The messages of `_flush_hints_for`.
def Message.OfFlush : Message α → Prop
  | .flush _ _ _ _ _ | .flushed _ _ _ => True
  | _                                  => False

def Message.OfHint (k : Key) : Message α → Prop
  | .hint _ _ (some key) _ => key = k
  | _                      => False

instance : DecidablePred (Message.OfFlush : Message α → Prop)
  | .flush _ _ _ _ _ | .flushed _ _ _               => isTrue trivial
  | .put _ _ _ _ | .delete _ _ _ | .hint _ _ _ _ => isFalse id

instance : DecidablePred (Message.OfHint k : Message α → Prop)
  | .hint _ _ (some key) _ => inferInstanceAs (Decidable (key = k))
  | .hint _ _ none _ | .put _ _ _ _ | .delete _ _ _ | .flush _ _ _ _ _ | .flushed _ _ _ =>
    isFalse id

section Restrictions

-- A flush is not interleaved with anything else.
def AtomicFlush (s : State α) (l : Label α) : Prop :=
  (∃ m ∈ s.net, m.OfFlush) → ∃ m ∈ s.taken l, m.OfFlush

-- The holder accepts all hints.
def HintsAccepted (k : Key) (s : State α) (l : Label α) : Prop :=
  ∀ m ∈ s.lost l, ¬m.OfHint k

abbrev HandoffRun (k : Key) (s : State α) (l : Label α) : Prop :=
  SuccessfulWrites k s l ∧ NoDelete k l ∧ HintsAccepted k s l ∧ AtomicFlush s l

instance : Decidable (AtomicFlush s l) :=
  inferInstanceAs (Decidable (_ → _))

instance : Decidable (HintsAccepted k s l) :=
  inferInstanceAs (Decidable (∀ m ∈ s.lost l, _))

-- Nothing of the key is in flight or hinted, and its puts have returned with success.
structure Quiescent (k : Key) (s : State α) : Prop where
  sent   : ∀ m ∈ s.net, ∀ v, ¬m.Carries k v
  hinted : ∀ g t, (s.node g).hintStore.pending t k = []
  puts   : ∀ op ∈ s.ops, op.key = k → ∀ w ∈ op.write, ¬w.Active ∧ op.Acked

instance : Decidable (Quiescent k s) :=
  decidable_of_iff (s.sentVersions k = [] ∧ s.hintedVersions k = [] ∧
      ∀ op ∈ s.ops, op.key = k → ∀ w ∈ op.write, ¬w.Active ∧ op.Acked) <| by
    rw [State.sentVersions_eq_nil, State.hintedVersions_eq_nil]
    exact ⟨fun ⟨h₁, h₂, h₃⟩ => ⟨h₁, h₂, h₃⟩, fun ⟨h₁, h₂, h₃⟩ => ⟨h₁, h₂, h₃⟩⟩

-- When everything has settled, the preferred nodes store exactly what was acknowledged last.
def HandoffComplete (cfg : Config) (k : Key) (s : State α) : Prop :=
  Quiescent k s → ∀ v, lastAcked s.ops k = some v → ∀ prefs, cfg.preferenceList k = some prefs →
    ∀ r ∈ prefs, (s.node r).getLocal k = [v]

end Restrictions

section Flush

open State in
theorem flush_origin_next (h : s.next cfg l = some s') (hm : m ∈ s'.net) (hf : m.OfFlush) :
    m ∈ s.net ∨ (∃ g t, l = .flush g t) ∧ (∀ g t k, m ≠ .flushed g t k) ∨
      ∃ g t k key v, s.delivered l = some (.flush g t k (some key) v) ∧ m = .flushed g t k := by
  cases nextStep h
  case idle     => exact .inl hm
  case putWrite =>
    rcases mem_net_sendWrites hm with hm | ⟨_, _, rfl⟩ | ⟨_, _, rfl⟩
    · exact .inl hm
    · exact hf.elim
    · exact hf.elim
  case hint =>
    rcases mem_net_deliverHint hm with hm | rfl
    · exact .inl hm
    · exact hf.elim
  case invokeDelete =>
    rcases List.mem_append.mp hm with hm | hm
    · exact .inl hm
    · obtain ⟨_, _, rfl⟩ := List.mem_map.mp hm
      exact hf.elim
  case lose => exact .inl <| List.mem_of_mem_eraseIdx hm
  case flush t g _ =>
    rcases List.mem_append.mp hm with hm | hm
    · exact .inl hm
    · obtain ⟨_, _, hm⟩ := List.mem_flatMap.mp hm
      obtain ⟨_, _, rfl⟩ := List.mem_map.mp hm
      exact .inr <| .inl ⟨⟨g, t, rfl⟩, by simp⟩
  case deliver hd =>
    rcases mem_net_handle hm with hm | ⟨g, t, k, key, v, he, hm⟩
    · exact .inl <| mem_net_of_rest hm
    · exact .inr <| .inr ⟨g, t, k, key, v, he ▸ hd, hm⟩

-- The messages of a flush are sent when it starts, or answer another message of it.
theorem flush_origin (h : step cfg s l = some s') (hm : m ∈ s'.net) (hf : m.OfFlush) :
    m ∈ s.net ∨ (∃ g t, l = .flush g t) ∧ (∀ g t k, m ≠ .flushed g t k) ∨
      ∃ g t k key v, s.delivered l = some (.flush g t k (some key) v) ∧ m = .flushed g t k := by
  obtain ⟨s₁, hn, rfl⟩ := State.step_eq_some.mp h
  exact flush_origin_next hn hm hf

open State in
-- As long as a flush is going on, no hints are added.
theorem mem_pending_of_flush (h : step cfg s l = some s') (hm : m ∈ s.taken l) (hf : m.OfFlush)
    (hv : v ∈ (s'.node r).hintStore.pending t k) : v ∈ (s.node r).hintStore.pending t k := by
  obtain ⟨s₁, hn, rfl⟩ := step_eq_some.mp h
  cases l <;> simp only [taken, Option.not_mem_none] at hm
  case deliver =>
    obtain ⟨_, hd, rfl⟩ := deliver_eq_some.mp hn
    cases Option.some.inj <| hd.symm.trans hm
    rcases mem_pending_handle hv with hv | rfl
    · exact hv
    · exact hf.elim
  case lose =>
    obtain ⟨_, rfl⟩ := lose_eq_some.mp hn
    exact hv

theorem covers_of_flushed (h : step cfg s l = some s')
    (hd : s.delivered l = some (.flush g t hintKey (some k) v)) :
    Covers ((s'.node t).getLocal k) v := by
  rw [getLocal_step h, hd]
  simp only [Option.elim, Message.store, and_self, if_true]
  exact reconcile_covers_self _ v

end Flush

section Writes

-- The replica write to the node has not completed yet.
def Put.Waits (p : Put s k) (r : NodeId) : Prop :=
  r ∈ p.write.call.prefs ∧ r ∉ p.write.call.completed.map Prod.fst

theorem OpStep.completed_of {op op' : Op α} (e : OpStep cfg s l i op op') (hw : op.write = some w)
    (hw' : op'.write = some w') (hr : r ∈ w'.call.completed.map Prod.fst) :
    r ∈ w.call.completed.map Prod.fst ∨ ∃ ok, l = .writeDone i r ok ∧ w.call.Completes r ok := by
  cases e
  case putWrite hn _ _ _ => simp [hn] at hw
  case writeDone w₀ r' ok hc hw₀ =>
    cases hw.symm.trans hw₀
    cases (Op.write_completeWrite hw).symm.trans hw'
    simp only [QuorumCall.complete, dif_pos hc, List.map_append, List.mem_append, List.map_cons,
      List.map_nil, List.mem_singleton] at hr
    refine hr.imp_right fun hr => ?_
    subst hr
    exact ⟨ok, rfl, hc⟩
  case deliver =>
    cases (Op.write_handleWrite hw).symm.trans hw'
    exact .inl <| by simpa using hr
  all_goals
    cases hw.symm.trans hw'
    exact .inl hr

-- A replica write which fails leaves a hint.
theorem hinted_of_failed {op : Op α} (hc : Clean op.key)
    (h : step cfg s (.writeDone i r false) = some s') (ho : s.ops[i]? = some op)
    (hw : op.write = some w) (hh : w.hintHolder = some holder) (hr : r ≠ holder) :
    Hinted s' r op.key w.version := by
  obtain ⟨s₁, hn, rfl⟩ := State.step_eq_some.mp h
  simp only [State.next, State.writeDone, ho, hw, Option.bind_eq_bind, Option.bind_some,
    Option.bind_eq_some_iff, hh, hr, ne_eq, not_false_eq_true, and_self, if_true] at hn
  obtain ⟨_, _, hn⟩ := hn
  cases Option.some.inj hn
  have hi : Hinted ((s.modifyOp i (·.completeWrite r false)).deliverHint cfg op.coord holder r
      op.key w.version) r op.key w.version := State.hinted_deliverHint hc
  exact hi.of_grow (fun _ => .refl) (List.Subset.refl _)

theorem OpStep.write_eq {op op' : Op α} (e : OpStep cfg s l i op op') (hn : op.write = none)
    (hw : op'.write = some w) : ∃ down merged value, l = .putWrite i down ∧
      op.request = .put value ∧ op.mergedRead cfg = .ok merged ∧
      w = op.startWrite cfg down merged value := by
  cases e
  case putWrite down merged value hq _ _ _ hm =>
    exact ⟨down, merged, value, rfl, hq, hm, (Option.some.inj hw).symm⟩
  case writeDone _ hw' => simp [hn] at hw'
  case deliver         => simp [Op.handleWrite, hn] at hw
  all_goals cases hn.symm.trans hw

-- When a put makes its version, it leaves hints for the nodes to which it does not send it.
theorem hinted_of_minted {op op' : Op α} (hc : Clean op.key) (h : step cfg s l = some s')
    (ho : s.ops[i]? = some op) (e : OpStep cfg s l i op op') (hn : op.write = none)
    (hw : op'.write = some w) (hh : cfg.hintHolder op.key op.prefs = some holder)
    (hr : r ∈ op.prefs) (hd : r ∉ w.call.prefs) : Hinted s' r op.key w.version := by
  obtain ⟨down, merged, value, rfl, hq, hm, rfl⟩ := e.write_eq hn hw
  obtain ⟨s₁, hs, rfl⟩ := State.step_eq_some.mp h
  obtain ⟨_, _, ho', _, hq', ⟨_, he, _⟩ | ⟨_, hm', rfl⟩⟩ := State.putWrite_eq_some.mp hs <;>
    cases Option.some.inj <| ho.symm.trans ho'
  · cases he.symm.trans hm
  · cases hq.symm.trans hq'
    cases hm.symm.trans hm'
    have ht : r ∈ op.prefs.filter (· ∈ down) := by
      simpa [Op.startWrite, QuorumCall.submit, hr] using hd
    have hi : Hinted (s.sendWrites cfg i op (op.startWrite cfg down merged value) _) r op.key
      (op.newVersion merged value) := State.hinted_sendWrites hc hh ht
    exact hi.of_grow (fun _ => .refl) (List.Subset.refl _)

end Writes

section Invariant

abbrev AckedPuts (k : Key) (s : State α) : Prop :=
  Ordered (fun a b => a.2.1 = k ∧ b.2.1 = k ∧ a.2.2.isPut ∧ b.2.2.isPut) Op.Acked s

variable (q : cfg.Quorum)

include q in
-- The versions of the key are totally ordered by when they were put.
theorem Put.version_le_of_index_le (d : Sound cfg s) (kp : Kept cfg k s) (ord : AckedPuts k s)
    {p p' : Put s k} (h : p.index ≤ p'.index) : p.version ≤ p'.version := by
  rcases Nat.lt_or_eq_of_le h with hlt | he
  · exact (kp.lt q d <| ord.before hlt p.mem p'.mem ⟨p.key, p'.key, p.isPut d, p'.isPut d⟩).le
  · rw [Put.ext he]

include q in
-- So that each list of hints for one node and key has at most one element.
theorem eq_of_mem_pending (d : Sound cfg s) (kp : Kept cfg k s) (ord : AckedPuts k s)
    (a : Antichains s) (hu : u ∈ (s.node g).hintStore.pending t k)
    (hv : v ∈ (s.node g).hintStore.pending t k) : u = v := by
  have ⟨p, hp⟩ := d.around <| .hinted hu
  have ⟨p', hp'⟩ := d.around <| .hinted hv
  subst hp hp'
  rcases Nat.le_total p.index p'.index with hi | hi
  · exact (a.hinted g t k).eq_of_le hu hv <| Put.version_le_of_index_le q d kp ord hi
  · exact ((a.hinted g t k).eq_of_le hv hu <| Put.version_le_of_index_le q d kp ord hi).symm

-- Each put has reached all preferred nodes, or there is a hint for those which it has not reached,
-- or a replica write which is not complete. Flushes clear hints only when they are stored.
structure Handoff (cfg : Config) (k : Key) (s : State α) : Prop where
  holder  : ∀ p : Put s k, p.write.hintHolder = cfg.hintHolder k p.op.prefs
  flush   : .flush g t k key v ∈ s.net → ∀ u ∈ (s.node g).hintStore.pending t k, u ≤ v
  flushed : .flushed g t k ∈ s.net → ∀ u ∈ (s.node g).hintStore.pending t k,
    Covers ((s.node t).getLocal k) u
  reaches : ∀ p : Put s k, ∀ r ∈ p.op.prefs,
    Covers ((s.node r).getLocal k) p.version ∨ Hinted s r k p.version ∨ p.Waits r

namespace Handoff

theorem initial : Handoff cfg k (State.initial : State α) where
  holder p  := absurd p.mem (by simp [State.initial])
  flush h   := by simp [State.initial] at h
  flushed h := by simp [State.initial] at h
  reaches p := absurd p.mem (by simp [State.initial])

variable (d : Sound cfg s) (kp : Kept cfg k s) (h : DynamoKV.step cfg s l = some s')
  (hi : Handoff cfg k s)
include d kp h hi

include q in
theorem step_flush (ord : AckedPuts k s) (a : Antichains s) (hf : AtomicFlush s l)
    (hm : .flush g t k key v ∈ s'.net) (hu : u ∈ (s'.node g).hintStore.pending t k) :
    u ≤ v := by
  have old (hm : .flush g t k key v ∈ s.net) : u ≤ v := by
    have ⟨m, hm', hof⟩ := hf ⟨_, hm, trivial⟩
    exact hi.flush hm u <| mem_pending_of_flush h hm' hof hu
  rcases flush_origin h hm trivial with hm | ⟨⟨_, _, rfl⟩, _⟩ | ⟨_, _, _, _, _, _, he⟩
  · exact old hm
  · rcases net_step h hm with hm | hs
    · exact old hm
    · obtain ⟨s₁, hn, rfl⟩ := State.step_eq_some.mp h
      obtain ⟨_, rfl⟩ := State.flush_eq_some.mp hn
      cases hs
      case flush hv => exact (eq_of_mem_pending q d kp ord a hu hv).le
  · cases he

theorem step_flushed (hf : AtomicFlush s l) (hm : .flushed g t k ∈ s'.net)
    (hu : u ∈ (s'.node g).hintStore.pending t k) : Covers ((s'.node t).getLocal k) u := by
  rcases flush_origin h hm trivial with hm | ⟨_, hn⟩ | ⟨g', t', k', key, v, hd, he⟩
  · have ⟨m, hm', hof⟩ := hf ⟨_, hm, trivial⟩
    have hc := hi.flushed hm u <| mem_pending_of_flush h hm' hof hu
    exact covers_step h (kp.not_erases d) hc
  · exact absurd rfl <| hn g t k
  · cases he
    have hnet := mem_net_of_delivered hd
    cases (d.clean.flush hnet).right
    have hm' : .flush g t k (some k) v ∈ s.taken l := by
      cases l <;> simp_all [State.delivered, State.taken]
    exact (covers_of_flushed h hd).mono <| hi.flush hnet u <|
      mem_pending_of_flush h hm' trivial hu

omit d kp in
theorem step_holder (p' : Put s' k) : p'.write.hintHolder = cfg.hintHolder k p'.op.prefs := by
  rcases p'.continues_or_minted h with ⟨p, e⟩ | ⟨op, _, hk, hm, e⟩
  · rw [e.write.hintHolder, e.op.prefs, hi.holder p]
  · rw [hm.holder, hk, e.prefs]

-- A replica write which completes has been executed, or it leaves a hint.
theorem covers_or_hinted_of_completed {p : Put s k} {p' : Put s' k} (e : p.Continues cfg l p')
    (hh : cfg.hintHolder k p.op.prefs = some g) (hr : r ≠ g)
    (hw : r ∉ p.write.call.completed.map Prod.fst)
    (hw' : r ∈ p'.write.call.completed.map Prod.fst) :
    Covers ((s.node r).getLocal k) p.version ∨ Hinted s' r k p.version := by
  have ⟨ok, hl, hc⟩ := e.op.completed_of p.wrote p'.wrote hw' |>.resolve_left hw
  cases ok
  case true =>
    obtain ⟨⟨r', u⟩, hx, rfl⟩ := List.mem_map.mp <| hc.handled rfl
    exact .inl <| kp.stored hx
  case false =>
    subst hl
    have hh : p.write.hintHolder = some g := (hi.holder p).trans hh
    have hs := hinted_of_failed (d.clean.ops p.mem) h p.mem p.wrote hh hr
    rw [p.key] at hs
    exact .inr hs

include q in
theorem step_reaches (sp : cfg.Spare) (ha : HintsAccepted k s l) (p' : Put s' k)
    (hr : r ∈ p'.op.prefs) :
    Covers ((s'.node r).getLocal k) p'.version ∨ Hinted s' r k p'.version ∨ p'.Waits r := by
  have stored {v} (hc : Covers ((s.node r).getLocal k) v) : Covers ((s'.node r).getLocal k) v :=
    covers_step h (kp.not_erases d) hc
  rcases p'.continues_or_minted h with ⟨p, e⟩ | ⟨op, ho, hk, hm, e⟩
  · rw [e.op.prefs] at hr
    rw [e.version]
    rcases hi.reaches p r hr with hc | hh | hw
    · exact .inl <| stored hc
    · rcases hh.step h fun m hm g u he => ha m hm <| he ▸ rfl with hh | ⟨g, hd, u, hu, hle⟩
      · exact .inr <| .inl hh
      · have hc := hi.flushed (mem_net_of_delivered hd) u hu
        exact .inl <| stored <| hc.mono hle
    · by_cases hc : r ∈ p'.write.call.completed.map Prod.fst
      case neg => exact .inr <| .inr ⟨e.write.call.prefs ▸ hw.left, hc⟩
      case pos =>
        have hp := (d.valid p.mem).prefs
        rw [p.key] at hp
        have ⟨g, hh, hn⟩ := sp.exists_hintHolder q.n hp
        have hne : r ≠ g := fun he => hn <| he ▸ hr
        refine (hi.covers_or_hinted_of_completed d kp h e hh hne hw.right hc).imp stored .inl
  · subst hk
    rw [e.prefs] at hr
    have ⟨_, hh, _⟩ := sp.exists_hintHolder q.n (d.valid ho).prefs
    by_cases hd : r ∈ p'.write.call.prefs
    case neg =>
      have hf := hm.fresh
      exact .inr <| .inl <| hinted_of_minted (d.clean.ops ho) h ho e hf p'.wrote hh hr hd
    case pos =>
      obtain ⟨down, merged, value, _, _, _, hw⟩ := e.write_eq hm.fresh p'.wrote
      exact .inr <| .inr ⟨hd, by simp [hw, Op.startWrite, QuorumCall.submit]⟩

include q in
theorem step (sp : cfg.Spare) (ord : AckedPuts k s) (a : Antichains s) (hl : HandoffRun k s l) :
    Handoff cfg k s' where
  holder          := hi.step_holder h
  flush hm _ hu   := hi.step_flush q d kp h ord a hl.right.right.right hm hu
  flushed hm _ hu := hi.step_flushed d kp h hl.right.right.right hm hu
  reaches p _ hr  := hi.step_reaches q d kp h sp hl.right.right.left p hr

end Handoff

theorem Handoff.of_reachable (q : cfg.Quorum) (sp : cfg.Spare)
    (r : (cluster cfg α).Reachable (fun s l => HandoffRun k s l ∧ l.CleanKey) s) :
    Handoff cfg k s := by
  refine r.invariant (fun _ hs => hs ▸ initial) fun s _ _ r hp h hi => ?_
  have d   := Sound.of_reachable q r fun _ _ h => h.right
  have kp  := Kept.of_reachable (k := k) q r (fun _ _ h => h.right) fun _ _ h => h.left.right.left
  have ord := SuccessfulWrites.ordered (k := k) q r (fun _ _ h => h.right) fun _ _ h => h.left.left
  exact hi.step q d kp h sp ord (.of_reachable r) hp.left

end Invariant

theorem Put.Waits.active {p : Put s k} (h : p.Waits r) : p.write.Active :=
  have hc : p.write.call.Completes r false := ⟨h.left, h.right, by simp⟩
  hc.completed_lt

theorem handoff_completes (q : cfg.Quorum) (sp : cfg.Spare)
    (r : (cluster cfg α).Reachable (fun s l => HandoffRun k s l ∧ l.CleanKey) s) :
    HandoffComplete cfg k s := by
  intro quiescent v hv prefs hprefs n hn
  have d   := Sound.of_reachable q r fun _ _ h => h.right
  have kp  := Kept.of_reachable (k := k) q r (fun _ _ h => h.right) fun _ _ h => h.left.right.left
  have ord := SuccessfulWrites.ordered (k := k) q r (fun _ _ h => h.right) fun _ _ h => h.left.left
  have a   := Antichains.of_reachable r
  have settled (p : Put s k) : ¬p.write.Active ∧ p.op.Acked :=
    quiescent.puts p.op (List.mem_of_getElem? p.mem) p.key p.write p.wrote
  obtain ⟨p, rfl, _, hlast⟩ := exists_put_of_lastAcked d (List.take_length (l := s.ops) ▸ hv)
  have last (p' : Put s k) : p'.index ≤ p.index :=
    hlast p' (settled p').right (List.getElem?_eq_some_iff.mp p'.mem).1
  have stored {v} (h : v ∈ (s.node n).getLocal k) :
      v ≤ p.version ∧ (p.version ≤ v → v = p.version) := by
    obtain ⟨p', rfl⟩ := d.around <| .stored h
    refine ⟨Put.version_le_of_index_le q d kp ord <| last p', fun hle => ?_⟩
    rcases Nat.lt_or_eq_of_le <| last p' with hlt | he
    · have hlt := ord.before hlt p'.mem p.mem ⟨p'.key, p.key, p'.isPut d, p.isPut d⟩
      exact absurd hle (kp.lt q d hlt).not_ge
    · rw [Put.ext he]
  have hc : Covers ((s.node n).getLocal k) p.version := by
    have hp := (d.valid p.mem).prefs
    rw [p.key, hprefs] at hp
    rcases (Handoff.of_reachable q sp r).reaches p n (Option.some.inj hp ▸ hn) with hc | hh | hw
    · exact hc
    · cases hh
      case held hc =>
        have ⟨_, hu, _⟩ := hc
        simp [quiescent.hinted] at hu
      case sent hm _ => exact absurd ⟨rfl, rfl⟩ <| quiescent.sent _ hm _
    · exact absurd hw.active (settled p).left
  have ⟨u, hu, hle⟩ := hc
  cases (stored hu).right hle
  exact (a.stored n k).eq_singleton hu fun _ h => (stored h).left

section Example

abbrev spareCluster : Config :=
  .ofNodes ["a", "b", "c", "d"] 3 2 2

theorem spare_spareCluster : spareCluster.Spare :=
  ⟨by decide, HashRing.injOn_byFirstLetter fun _ hm => hm⟩

-- The coordinator "a" puts a value while it believes "c" to be down. Later "d" hands it over to
-- "c".
def putThenFlush : List (Label Nat) := [
  .invoke "a" "k" (.put 7), .read 0 "a", .read 0 "b", .readDone 0 "a" true, .readDone 0 "b" true,
  .putWrite 0 ["c"], .deliver 1 false, .deliver 1 false, .writeDone 0 "a" true,
  .writeDone 0 "b" true, .putReturn 0, .deliver 0 false, .flush "d" "c", .deliver 0 false,
  .deliver 0 false]

abbrev afterPutThenFlush : State Nat :=
  (cluster spareCluster Nat).after (fun s l => HandoffRun "k" s l ∧ l.CleanKey) .initial
    putThenFlush

set_option maxRecDepth 100000 in
theorem handoff_completes_flushed : ∃ s : State Nat, Quiescent "k" s ∧
    ∃ v, lastAcked s.ops "k" = some v ∧ (s.node "c").getLocal "k" = [v] := by
  have hq : Quiescent "k" afterPutThenFlush := by decide
  have hl : (lastAcked afterPutThenFlush.ops "k").isSome := by decide
  have ⟨v, hv⟩ := Option.isSome_iff_exists.mp hl
  refine ⟨_, hq, v, hv, ?_⟩
  exact handoff_completes (by decide) spare_spareCluster (.after rfl _) hq v hv ["a", "b", "c"]
    (by decide) "c" (by decide)

-- "b" and "c" store the value under "a".
def putToAll : List (Label Nat) := [
  .invoke "a" "a?b" (.put 7), .read 0 "a", .read 0 "b", .readDone 0 "a" true, .readDone 0 "b" true,
  .putWrite 0 [], .deliver 0 false, .deliver 0 false, .deliver 0 false, .writeDone 0 "a" true,
  .writeDone 0 "b" true, .writeDone 0 "c" true, .putReturn 0]

abbrev afterPutToAll : State Nat :=
  (cluster spareCluster Nat).after (HandoffRun "a?b") .initial putToAll

set_option maxRecDepth 100000 in
theorem not_handoffComplete : ¬∀ (cfg : Config) (k : Key) (s : State Nat), cfg.Quorum → cfg.Spare →
    (cluster cfg Nat).Reachable (HandoffRun k) s → HandoffComplete cfg k s := by
  intro h
  have hc := h _ "a?b" afterPutToAll (by decide) spare_spareCluster (.after rfl _)
  have hl : (lastAcked afterPutToAll.ops "a?b").isSome := by decide
  have ⟨v, hv⟩ := Option.isSome_iff_exists.mp hl
  have hn : (afterPutToAll.node "b").getLocal "a?b" = [] := by decide
  have hb := hc (by decide) v hv ["a", "b", "c"] (by decide) "b" (by decide)
  simp [hn] at hb

end Example
end DynamoKV

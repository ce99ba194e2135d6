import DynamoKV.Execution.Theorems.Overlap
import DynamoKV.Execution.Threads
import DynamoKV.Lib.Causality

-- What the clocks of versions say about which puts have read which.
namespace DynamoKV

open Antichain Relation

variable {α : Type} {cfg : Config} {s s' : State α} {l : Label α} {k : Key}

-- A put which makes its version has found at least the entries in its coordinator's name which the
-- coordinator has made for the key before.
def SeesOwn (cfg : Config) (k : Key) (s : State α) (l : Label α) : Prop :=
  ∀ i ∈ l.putWrites, ∀ op ∈ s.ops[i]?, op.key = k → op.read.Reached (cfg.readThreshold op.prefs) →
    ∀ op' ∈ s.ops, op'.key = k → op'.coord = op.coord → ∀ v ∈ op'.version,
      ∃ vs ∈ op.replies cfg, ∃ x ∈ vs, v.clock.get op.coord ≤ x.clock.get op.coord

instance : Decidable (SeesOwn cfg k s l) :=
  inferInstanceAs (Decidable (∀ _ ∈ l.putWrites, _))

-- Of two puts with the same coordinator, one has read at least the other's own entry.
structure OwnSeen (k : Key) (s : State α) : Prop where
  seen : ∀ {p p' : Put s k}, p.coord = p'.coord → p ≠ p' →
    (∃ x ∈ p'.write.merged, p.version.clock.get p.coord ≤ x.clock.get p.coord) ∨
    (∃ x ∈ p.write.merged, p'.version.clock.get p'.coord ≤ x.clock.get p'.coord)

theorem exists_mergeReplies_le {results : List (List (Version α))} (h : vs ∈ results) (hx : x ∈ vs)
    (n : NodeId) : ∃ y ∈ mergeReplies results, x.clock.get n ≤ y.clock.get n :=
  have ⟨y, hy, hle⟩ := mergeReplies_covers h (.of_mem hx)
  ⟨y, hy, hle n⟩

namespace OwnSeen

theorem initial : OwnSeen k (State.initial : State α) where
  seen {p} := absurd p.mem (by simp [State.initial])

-- A put which makes its version now has seen the own entries of all other puts.
theorem of_minted (hs : SeesOwn cfg k s l) {p : Put s k} {p₁ p' : Put s' k} {op : Op α}
    (e : p.Continues cfg l p₁) (ho : s.ops[p'.index]? = some op) (hk : op.key = k)
    (hm : Mints cfg s l p'.index op p'.write) (e' : OpStep cfg s l p'.index op p'.op)
    (hc : p₁.coord = p'.coord) :
    ∃ x ∈ p'.write.merged, p₁.version.clock.get p₁.coord ≤ x.clock.get p₁.coord := by
  obtain ⟨down, hl⟩ := hm.label
  obtain ⟨hr, hmerged⟩ := mergedRead_eq_ok hm.merged
  have hcoord : p.op.coord = op.coord := by
    rw [← e.op.coord, ← e'.coord]
    exact hc
  obtain ⟨vs, hvs, x, hx, hle⟩ := hs p'.index (by rw [hl]; rfl) op ho hk hr p.op
    (List.mem_of_getElem? p.mem) p.key hcoord p.version (by rw [Op.version, p.wrote]; rfl)
  obtain ⟨y, hy, hxy⟩ := exists_mergeReplies_le hvs hx op.coord
  refine ⟨y, hmerged ▸ hy, ?_⟩
  rw [e.version, hc, Put.coord, e'.coord]
  exact hle.trans hxy

theorem step (o : OwnSeen k s) (hs : SeesOwn cfg k s l) (h : DynamoKV.step cfg s l = some s') :
    OwnSeen k s' := by
  refine ⟨fun {p₁ p₁'} hc hne => ?_⟩
  rcases p₁.continues_or_minted h with ⟨p, e⟩ | ⟨op, ho, hk, hm, e⟩ <;>
  rcases p₁'.continues_or_minted h with ⟨p', e'⟩ | ⟨op', ho', hk', hm', e'⟩
  · have hc' : p.coord = p'.coord := by
      rw [Put.coord, Put.coord, ← e.op.coord, ← e'.op.coord]
      exact hc
    have hne' : p ≠ p' := fun he => hne <| Put.ext <| by rw [e.index, e'.index, he]
    rw [e.version, e'.version, e.write.merged, e'.write.merged, Put.coord, Put.coord, e.op.coord,
      e'.op.coord]
    exact o.seen hc' hne'
  · exact .inl <| of_minted hs e ho' hk' hm' e' hc
  · exact .inr <| of_minted hs e' ho hk hm e hc.symm
  · have ⟨_, hl⟩  := hm.label
    have ⟨_, hl'⟩ := hm'.label
    exact absurd (Put.ext (Label.putWrite.inj (hl.symm.trans hl')).left) hne

-- Coordinators which execute their own puts one at a time see their own entries.
theorem of_ordered (q : cfg.Quorum) (d : Sound cfg s) (kp : Kept cfg k s)
    (ord : Ordered (fun a b => a.1 = b.1 ∧ a.2.1 = k ∧ b.2.1 = k ∧ a.2.2.isPut ∧ b.2.2.isPut)
      Op.Acked s) : OwnSeen k s := by
  have sees : ∀ {p p' : Put s k}, p.coord = p'.coord → p.index < p'.index →
      ∃ x ∈ p'.write.merged, p.version.clock.get p.coord ≤ x.clock.get p.coord := by
    intro p p' hc hi
    have ha : p.op.AckedBefore p'.op :=
      ord.before hi p.mem p'.mem ⟨hc, p.key, p'.key, p.isPut d, p'.isPut d⟩
    have ⟨x, hx, hle⟩ := kp.covers_merged q d ha
    exact ⟨x, hx, hle _⟩
  refine ⟨fun {p p'} hc hne => ?_⟩
  rcases Nat.lt_trichotomy p.index p'.index with hi | hi | hi
  · exact .inl <| sees hc hi
  · exact absurd (Put.ext hi) hne
  · exact .inr <| sees hc.symm hi

end OwnSeen

section Tracks

theorem Put.exists_of_mem_merged (d : Sound cfg s) (p : Put s k) (h : v ∈ p.write.merged) :
    ∃ p' : Put s k, p'.version = v := by
  rw [((d.valid p.mem).wrote p.wrote).merged] at h
  have ⟨x, hx, hv⟩ := exists_handled_of_mem_mergeReplies h
  have := d.answers p.mem hx hv
  rwa [p.key] at this

theorem Put.clock_eq (d : Sound cfg s) (p : Put s k) :
    p.version.clock = (VectorClock.merge <| p.write.merged.map (·.clock)).incremented p.coord := by
  have ⟨value, _, hv⟩ := ((d.valid p.mem).wrote p.wrote).put
  rw [version, hv]
  rfl

-- The clocks of a key's versions track which puts have read which.
theorem OwnSeen.tracks (o : OwnSeen k s) (d : Sound cfg s) :
    Causality.Tracks (ι := Put s k) Put.coord (fun p => p.version.clock.get) Put.Reads where
  wf := by
    have hi : Std.Irrefl fun p p' : Put s k => p.version < p'.version := ⟨fun _ => lt_irrefl _⟩
    have ht : IsTrans (Put s k) fun p p' => p.version < p'.version := ⟨fun _ _ _ => lt_trans⟩
    have := Finite.wellFounded_of_trans_of_irrefl fun p p' : Put s k => p.version < p'.version
    exact Subrelation.wf (fun {_ p'} h => p'.lt_version d h) this
  pos p := by
    have := VectorClock.merge_get_nonneg (p.write.merged.map (·.clock)) p.coord
    rw [p.clock_eq d, VectorClock.get_incremented_self]
    omega
  le {_ p'} h := (p'.lt_version d h).le
  lt {p p'} h := by
    have hle : p.version.clock ≤ _ := VectorClock.le_merge (List.mem_map_of_mem h)
    rw [p'.clock_eq d, VectorClock.get_incremented_self]
    exact Int.lt_add_one_of_le (hle _)
  origin {p n m} hn hm hle := by
    rw [p.clock_eq d, VectorClock.get_incremented_of_ne hn] at hle
    have ⟨c, hc, hle⟩ := VectorClock.exists_le_get_of_le_merge_get hm hle
    obtain ⟨v, hv, rfl⟩ := List.mem_map.mp hc
    obtain ⟨p', rfl⟩ := p.exists_of_mem_merged d hv
    exact ⟨p', hv, hle⟩
  serial {p p'} hc hne := by
    have exists_put : ∀ {p p' : Put s k},
        (∃ x ∈ p'.write.merged, p.version.clock.get p.coord ≤ x.clock.get p.coord) →
        ∃ x : Put s k, x.Reads p' ∧ p.version.clock.get p.coord ≤ x.version.clock.get p.coord := by
      intro p p' ⟨v, hv, hle⟩
      obtain ⟨x, rfl⟩ := p'.exists_of_mem_merged d hv
      exact ⟨x, hv, hle⟩
    exact (o.seen hc hne).imp exists_put exists_put

end Tracks

-- The other put is the same one, or it has read this put's version, directly or transitively.
def Put.Precedes (p p' : Put s k) : Prop :=
  p = p' ∨ TransGen Put.Reads p p'

section Reads

variable (q : cfg.Quorum) (d : Sound cfg s) (kp : Kept cfg k s) (o : OwnSeen k s)
include d o

theorem le_iff_precedes {p p' : Put s k} : p.version ≤ p'.version ↔ p.Precedes p' :=
  (o.tracks d).le_iff

theorem eq_of_compare_eq_equal {p p' : Put s k}
    (h : p.version.clock.compare p'.version.clock = .equal) : p = p' :=
  have ⟨hle, hge⟩ := VectorClock.compare_eq_equal_iff.mp h
  (o.tracks d).eq_of_le_of_le hle hge

-- What covers the version of a put belongs to a put which it precedes.
theorem exists_precedes_of_covers {vs : List (Version α)} {p : Put s k}
    (h : ∀ v ∈ vs, ∃ p' : Put s k, p'.version = v) (hc : Covers vs p.version) :
    ∃ p' : Put s k, p.Precedes p' ∧ p'.version ∈ vs := by
  have ⟨v, hv, hle⟩ := hc
  obtain ⟨p', rfl⟩ := h v hv
  exact ⟨p', (le_iff_precedes d o).mp hle, hv⟩

include q kp

theorem exists_precedes_of_ackedBefore {p : Put s k} {i : Nat} {g : Op α} (hg : s.ops[i]? = some g)
    (hk : g.key = k) (ha : p.op.AckedBefore g)
    (hr : g.read.Reached (cfg.readThreshold g.prefs)) :
    ∃ p' : Put s k, p.Precedes p' ∧ p'.version ∈ mergeReplies (g.replies cfg) := by
  refine exists_precedes_of_covers d o (fun v hv => ?_) (kp.covers q d hg hk ha hr)
  have ⟨x, hx, hv⟩ := exists_handled_of_mem_mergeReplies hv
  exact hk ▸ d.answers hg hx hv

end Reads

section Concurrent

-- All gets return the versions of the puts which were acknowledged before, or of puts which have
-- read these, and no two puts make versions with equal clocks.
def NoPutLost (cfg : Config) (k : Key) (s : State α) : Prop :=
  (∀ (p : Put s k) (i : Nat) (g : Op α) (out : Outcome α (Version α)), s.ops[i]? = some g →
    g.key = k → g.request = .get → g.Unfailed cfg → g.outcome = some out → p.op.AckedBefore g →
    ∃ p' : Put s k, p.Precedes p' ∧ p'.version ∈ out.response.versions) ∧
  ∀ p p' : Put s k, p.version.clock.compare p'.version.clock = .equal → p = p'

theorem OwnSeen.of_reachable {P : State α → Label α → Prop} (r : (cluster cfg α).Reachable P s)
    (hs : ∀ s l, P s l → SeesOwn cfg k s l) : OwnSeen k s :=
  r.invariant (fun _ hi => hi ▸ initial) fun _ _ _ _ hp h o => o.step (hs _ _ hp) h

theorem NoPutLost.of_reachable (q : cfg.Quorum) (r : (cluster cfg α).Reachable
      (fun s l => NoDelete k l ∧ l.CleanKey ∧ SeesOwn cfg k s l) s) : NoPutLost cfg k s := by
  have d  := Sound.of_reachable q r fun _ _ h => h.right.left
  have kp := Kept.of_reachable (k := k) q r (fun _ _ h => h.right.left) fun _ _ h => h.left
  have o  := OwnSeen.of_reachable (k := k) r fun _ _ h => h.right.right
  refine ⟨fun p i g out hg hk hget hu ho ha => ?_, fun p p' h => eq_of_compare_eq_equal d o h⟩
  have hnp : ¬g.request.isPut := by simp [hget, Request.isPut]
  obtain ⟨hr, hresp⟩ := ((d.valid hg).answered ho).of_unfailed hnp hu
  rw [hresp, versions_getResponse]
  exact exists_precedes_of_ackedBefore q d kp o hg hk ha hr

-- Replicas may handle requests at the same time, other than `put_local` of a key.
theorem noPutLost_of_seesOwn {s : Threads.State α} (q : cfg.Quorum)
    (r : (Threads.system cfg builds).Reachable
      (Threads.On fun s l => NoDelete k l ∧ l.CleanKey ∧ SeesOwn cfg k s l) s) :
    NoPutLost cfg k s.cluster :=
  .of_reachable q (Threads.atomic_of_reachable r).left

-- Calls of `put_local` overlap at "a" and at "b". Both of these lose the put of 1, which they have
-- acknowledged.
def overlappingPuts : List (Threads.Label Nat) := [
  .request (.invoke "a" "k" (.put 1)), .request (.invoke "c" "k" (.put 2)),
  .request (.read 0 "a"), .request (.read 0 "b"), .request (.readDone 0 "a" true),
  .request (.readDone 0 "b" true), .request (.read 1 "b"), .request (.read 1 "c"),
  .request (.readDone 1 "b" true), .request (.readDone 1 "c" true),
  .request (.putWrite 0 []), .request (.putWrite 1 []),
  .get 0, .get 3, .request (.deliver 0 false), .request (.deliver 2 false),
  .get 0, .get 2, .request (.deliver 0 false), .request (.deliver 1 false),
  .request (.writeDone 0 "a" true), .request (.writeDone 0 "b" true), .request (.putReturn 0),
  .request (.writeDone 1 "a" true), .request (.writeDone 1 "b" true), .request (.putReturn 1),
  .request (.invoke "b" "k" .get), .request (.read 2 "a"), .request (.read 2 "b"),
  .request (.readDone 2 "a" true), .request (.readDone 2 "b" true), .request (.getReturn 2)]

set_option maxRecDepth 100000 in
example :
    let s := (Threads.system (.ofNodes ["a", "b", "c"] 3 2 2) fun _ _ => true).after
      (fun _ _ => True) .initial overlappingPuts
    (∀ op ∈ s.cluster.ops.take 2, op.Acked) ∧
      ∃ g ∈ s.cluster.ops[2]?, ∃ o ∈ g.outcome, o.response.versions.map (·.value) = [2] := by
  decide

theorem not_transGen_reads (h : ∀ op ∈ s.ops, ∀ w ∈ op.write, w.merged.length = 0)
    (p p' : Put s k) : ¬TransGen Put.Reads p p' := by
  have hn : p'.write.merged = [] :=
    List.length_eq_zero_iff.mp <| h p'.op (List.mem_of_getElem? p'.mem) p'.write p'.wrote
  intro ht
  cases ht
  case single hr => simp [Put.Reads, hn] at hr
  case tail hr   => simp [Put.Reads, hn] at hr

-- Two concurrent puts at one coordinator, and a get.
def putTwice : List (Label Nat) := [
  .invoke "a" "k" (.put 1), .read 0 "a", .readDone 0 "a" true,
  .invoke "a" "k" (.put 2), .read 1 "a", .readDone 1 "a" true,
  .putWrite 0 [], .deliver 0 false, .writeDone 0 "a" true, .putReturn 0,
  .putWrite 1 [], .deliver 0 false, .writeDone 1 "a" true, .putReturn 1,
  .invoke "a" "k" .get, .read 2 "a", .readDone 2 "a" true, .getReturn 2]

abbrev afterPutTwice : State Nat :=
  (cluster (.ofNodes ["a"] 1 1 1) Nat).after (fun _ l => NoDelete "k" l ∧ l.NoFailure) .initial
    putTwice

-- Both puts read the same state and make the same clock, so that the replica drops the second one.
set_option maxRecDepth 100000 in
theorem not_noPutLost : ¬∀ (cfg : Config) (k : Key) (s : State Nat), cfg.Quorum →
    (cluster cfg Nat).Reachable (fun _ l => NoDelete k l ∧ l.NoFailure) s → NoPutLost cfg k s := by
  intro h
  have ⟨hl, _⟩ := h (.ofNodes ["a"] 1 1 1) "k" afterPutTwice (by decide) (.after rfl _)
  have ⟨op, hop, ⟨w, hw, g, hg, hk, ⟨hgk, hget, hr⟩, out, ho, ⟨ha, o, hoo, ht⟩, hv⟩⟩ :
      ∃ op ∈ afterPutTwice.ops[1]?, ∃ w ∈ op.write, ∃ g ∈ afterPutTwice.ops[2]?, op.key = "k" ∧
        (g.key = "k" ∧ ¬g.request.isPut ∧
          g.read.Reached ((Config.ofNodes ["a"] 1 1 1).readThreshold g.prefs)) ∧
        ∃ out ∈ g.outcome, (op.Acked ∧ ∃ o ∈ op.outcome, o.time < g.started) ∧
        ∀ v ∈ out.response.versions, v.value ≠ w.version.value := by
    decide
  have hn : ∀ op ∈ afterPutTwice.ops, ∀ w ∈ op.write, w.merged.length = 0 := by decide
  have ⟨p', hp, hm⟩ := hl ⟨1, op, w, hop, hk, hw⟩ 2 g out hg hgk (Request.eq_get hget) (.inl hr) ho
    ⟨ha, o, hoo, ht⟩
  rcases hp with rfl | hp
  · exact hv _ hm rfl
  · exact not_transGen_reads hn _ _ hp

-- The coordinators "a" and "c" put values concurrently, and "b" gets them.
def concurrentPuts (key : Key) : List (Label Nat) := [
  .invoke "a" key (.put 1), .invoke "c" key (.put 2),
  .read 0 "a", .read 0 "b", .readDone 0 "a" true, .readDone 0 "b" true,
  .read 1 "b", .read 1 "c", .readDone 1 "b" true, .readDone 1 "c" true,
  .putWrite 0 [], .putWrite 1 [],
  .deliver 0 false, .deliver 0 false, .writeDone 0 "a" true, .writeDone 0 "b" true, .putReturn 0,
  .deliver 2 false, .deliver 2 false, .writeDone 1 "b" true, .writeDone 1 "c" true, .putReturn 1,
  .invoke "b" key .get, .read 2 "a", .read 2 "b", .readDone 2 "a" true, .readDone 2 "b" true,
  .getReturn 2]

abbrev afterConcurrentPuts (key : Key) (P : State Nat → Label Nat → Prop)
    [∀ s l, Decidable (P s l)] : State Nat :=
  (cluster (.ofNodes ["a", "b", "c"] 3 2 2) Nat).after P .initial (concurrentPuts key)

set_option maxRecDepth 100000 in
theorem noPutLost_of_seesOwn_three : ∃ s : Threads.State Nat,
    (∃ g ∈ s.cluster.ops[2]?, ∃ o ∈ g.outcome, o.response.versions.length = 2) ∧
      NoPutLost (.ofNodes ["a", "b", "c"] 3 2 2) "k" s.cluster := by
  let P := fun s (l : Label Nat) =>
    NoDelete "k" l ∧ l.CleanKey ∧ SeesOwn (.ofNodes ["a", "b", "c"] 3 2 2) "k" s l
  obtain ⟨s, r, hs⟩ := Threads.exists_of_reachable (P := P) (c := afterConcurrentPuts "k" P)
    (.after rfl _)
  refine ⟨s, ?_, noPutLost_of_seesOwn (by decide) r⟩
  rw [hs]
  decide

end Concurrent

section Causal

-- The message makes the replica store the version.
def Message.Stores (r : NodeId) (k : Key) (v : Version α) : Message α → Prop
  | .put _ dest (some key) w | .flush _ dest _ (some key) w => dest = r ∧ key = k ∧ w = v
  | _                                                       => False

theorem Message.Stores.covers {m : Message α} (h : m.Stores r k v) (vs : List (Version α)) :
    Covers (m.store r k vs) v := by
  unfold Message.Stores at h
  split at h
  case h_1 | h_2 =>
    obtain ⟨rfl, rfl, rfl⟩ := h
    simpa [Message.store] using reconcile_covers_self vs _
  case h_3 => exact h.elim

-- Clocks are ordered as causality is, and reads only drop a version for a causal successor, so that
-- unrelated puts which no other put has read are in conflict.
structure CausalClocks (cfg : Config) (k : Key) (s : State α) : Prop where
  clocks    : ∀ p p' : Put s k,
    p.version.clock.compare p'.version.clock ∈ [.dominated, .equal] ↔ p.Precedes p'
  reads     : ∀ (i : Nat) (g : Op α), s.ops[i]? = some g → g.key = k → ∀ vs ∈ g.replies cfg,
    ∀ v ∈ vs, ∃ p p' : Put s k, p.version = v ∧ p.Precedes p' ∧
      p'.version ∈ mergeReplies (g.replies cfg)
  conflicts : ∀ (p p' : Put s k) (i : Nat) (g : Op α) (out : Outcome α (Version α)),
    s.ops[i]? = some g → g.key = k → g.request = .get → g.Unfailed cfg → g.outcome = some out →
    p.op.AckedBefore g → p'.op.AckedBefore g → p ≠ p' →
    (∀ x, ¬TransGen Put.Reads p x) → (∀ x, ¬TransGen Put.Reads p' x) →
    ∃ versions, out.response = .error (.conflict k versions) ∧
      p.version ∈ versions ∧ p'.version ∈ versions

-- A replica only drops a version, be it stored or received, for a causal successor.
def DropsForSuccessors (k : Key) (s : State α) (l : Label α) (s' : State α) : Prop :=
  ∀ r v, v ∈ (s.node r).getLocal k ∨ (∃ m ∈ s.delivered l, m.Stores r k v) →
    ∃ p p' : Put s' k, p.version = v ∧ p.Precedes p' ∧ p'.version ∈ (s'.node r).getLocal k

theorem getResponse_eq_conflict {vs : List (Version α)} (h : v ∈ vs) (h' : w ∈ vs) (hn : v ≠ w) :
    getResponse k vs = .error (.conflict k vs) := by
  match vs with
  | []         => contradiction
  | [x]        => exact absurd ((List.mem_singleton.mp h).trans (List.mem_singleton.mp h').symm) hn
  | _ :: _ :: _ => rfl

theorem CausalClocks.of_ownSeen (q : cfg.Quorum) (d : Sound cfg s) (kp : Kept cfg k s)
    (o : OwnSeen k s) : CausalClocks cfg k s where
  clocks p p' := by
    rw [← le_iff_precedes d o, Version.le_def, List.mem_cons, List.mem_singleton,
      VectorClock.compare_eq_dominated_iff, VectorClock.compare_eq_equal_iff, lt_iff_le_not_ge]
    tauto
  reads i g hg hk vs hvs v hv := by
    have source : ∀ {vs v}, vs ∈ g.replies cfg → v ∈ vs → ∃ p : Put s k, p.version = v := by
      intro vs v hvs hv
      obtain ⟨x, hx, rfl⟩ := List.mem_map.mp hvs
      exact hk ▸ d.answers hg (QuorumCall.handled_of_mem_successes hx) hv
    obtain ⟨p, rfl⟩ := source hvs hv
    obtain ⟨p', hp, hm⟩ := exists_precedes_of_covers d o
      (fun w hw => (mem_mergeReplies hw).elim fun _ h => source h.left h.right)
      (mergeReplies_covers hvs (.of_mem hv))
    exact ⟨p, p', rfl, hp, hm⟩
  conflicts p p' i g out hg hk hget hu ho ha ha' hne hx hx' := by
    have hnp : ¬g.request.isPut := by simp [hget, Request.isPut]
    obtain ⟨hr, hresp⟩ := ((d.valid hg).answered ho).of_unfailed hnp hu
    have mem : ∀ {p : Put s k}, p.op.AckedBefore g → (∀ x, ¬TransGen Put.Reads p x) →
        p.version ∈ mergeReplies (g.replies cfg) := by
      intro p ha hx
      obtain ⟨x, hp, hm⟩ := exists_precedes_of_ackedBefore q d kp o hg hk ha hr
      exact hp.resolve_right (hx x) ▸ hm
    have hv : p.version ≠ p'.version := fun he =>
      hne <| ((le_iff_precedes d o).mp he.le).resolve_right (hx p')
    refine ⟨_, ?_, mem ha hx, mem ha' hx'⟩
    rw [hresp, hk]
    exact getResponse_eq_conflict (mem ha hx) (mem ha' hx') hv

theorem Message.Stores.carries {m : Message α} (h : m.Stores r k v) : m.Carries k v := by
  unfold Message.Stores at h
  split at h
  case h_1 | h_2 => exact h.right
  case h_3       => exact h.elim

theorem DropsForSuccessors.of_step (d : Sound cfg s) (kp : Kept cfg k s) (d' : Sound cfg s')
    (o' : OwnSeen k s') (h : step cfg s l = some s') : DropsForSuccessors k s l s' := by
  intro r v hv
  have ⟨ha, hc⟩ : Around s k v ∧ Covers ((s'.node r).getLocal k) v := by
    rcases hv with hv | ⟨m, hm, hst⟩
    · exact ⟨.stored hv, covers_step h (kp.not_erases d) (.of_mem hv)⟩
    · refine ⟨.sent (mem_net_of_delivered hm) hst.carries, ?_⟩
      rw [getLocal_step h, Option.mem_def.mp hm]
      exact hst.covers _
  obtain ⟨p, rfl⟩ := d.around ha
  have ⟨p', e⟩ := p.exists_continues h
  have ⟨x, hp, hx⟩ := exists_precedes_of_covers d' o' (fun w hw => d'.around <| .stored hw)
    (e.version.symm ▸ hc)
  exact ⟨p', x, e.version, hp, hx⟩

abbrev OwnSerialRun (k : Key) (s : State α) (l : Label α) : Prop :=
  OwnSerial k s l ∧ NoDelete k l

theorem OwnSeen.of_ownSerial (q : cfg.Quorum)
    (r : (cluster cfg α).Reachable (fun s l => OwnSerialRun k s l ∧ l.CleanKey) s) :
    Sound cfg s ∧ Kept cfg k s ∧ OwnSeen k s := by
  have d   := Sound.of_reachable q r fun _ _ h => h.right
  have kp  := Kept.of_reachable (k := k) q r (fun _ _ h => h.right) fun _ _ h => h.left.right
  have ord := OwnSerial.ordered (k := k) q r (fun _ _ h => h.right) fun _ _ h => h.left.left
  exact ⟨d, kp, .of_ordered q d kp ord⟩

theorem causalClocks_of_ownSerial (q : cfg.Quorum)
    (r : (cluster cfg α).Reachable (fun s l => OwnSerialRun k s l ∧ l.CleanKey) s) :
    CausalClocks cfg k s ∧ ∀ l s', OwnSerialRun k s l → l.CleanKey → step cfg s l = some s' →
      DropsForSuccessors k s l s' := by
  have ⟨d, kp, o⟩ := OwnSeen.of_ownSerial q r
  refine ⟨.of_ownSeen q d kp o, fun l s' hp hl h => ?_⟩
  have ⟨d', _, o'⟩ := OwnSeen.of_ownSerial q (r.step ⟨hp, hl⟩ h)
  exact .of_step d kp d' o' h

set_option maxRecDepth 100000 in
theorem causalClocks_of_ownSerial_three :
    ∃ s : State Nat, (∃ g ∈ s.ops[2]?, ∃ o ∈ g.outcome, o.response.statusCode = 409) ∧
      CausalClocks (.ofNodes ["a", "b", "c"] 3 2 2) "k" s :=
  ⟨afterConcurrentPuts "k" fun s l => OwnSerialRun "k" s l ∧ l.CleanKey, by decide,
    (causalClocks_of_ownSerial (by decide) (.after rfl _)).left⟩

-- Peers receive the key "a?b" as "a", so that "b" does not find the put of "a" at "a", nor what it
-- has stored itself under "a".
set_option maxRecDepth 100000 in
theorem not_causalClocks : ¬∀ (cfg : Config) (k : Key) (s : State Nat), cfg.Quorum →
    (cluster cfg Nat).Reachable (OwnSerialRun k) s → CausalClocks cfg k s ∧
      ∀ l s', OwnSerialRun k s l → step cfg s l = some s' → DropsForSuccessors k s l s' := by
  intro h
  let s := afterConcurrentPuts "a?b" (OwnSerialRun "a?b")
  have ⟨hc, _⟩ := h (.ofNodes ["a", "b", "c"] 3 2 2) "a?b" s (by decide) (.after rfl _)
  have acked : ∀ i ∈ [0, 1], ∃ op ∈ s.ops[i]?, ∃ w ∈ op.write, ∃ g ∈ s.ops[2]?, op.key = "a?b" ∧
      op.Acked ∧ ∃ o ∈ op.outcome, o.time < g.started := by
    decide
  have ⟨g, hg, hk, hget, hr, out, ho, hs⟩ : ∃ g ∈ s.ops[2]?, g.key = "a?b" ∧ ¬g.request.isPut ∧
      g.read.Reached ((Config.ofNodes ["a", "b", "c"] 3 2 2).readThreshold g.prefs) ∧
      ∃ out ∈ g.outcome, out.response.statusCode ≠ 409 := by
    decide
  have hn : ∀ op ∈ s.ops, ∀ w ∈ op.write, w.merged.length = 0 := by decide
  have before : ∀ i ∈ [0, 1], ∃ p : Put s "a?b", p.index = i ∧ p.op.AckedBefore g := by
    intro i hi
    have ⟨op, hop, w, hw, g', hg', hk, ha, o, hoo, ht⟩ := acked i hi
    obtain rfl := Option.some.inj (hg.symm.trans hg')
    exact ⟨⟨i, op, w, hop, hk, hw⟩, rfl, ha, o, hoo, ht⟩
  have ⟨p, hp, ha⟩   := before 0 (by simp)
  have ⟨p', hp', ha'⟩ := before 1 (by simp)
  have hne : p ≠ p' := fun he => by simp [he, hp'] at hp
  have ⟨versions, he, _⟩ := hc.conflicts p p' 2 g out hg hk (Request.eq_get hget) (.inl hr) ho ha
    ha' hne (not_transGen_reads hn p) (not_transGen_reads hn p')
  exact hs <| by rw [he]; rfl

end Causal
end DynamoKV

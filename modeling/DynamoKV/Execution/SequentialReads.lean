import DynamoKV.Execution.Theorems.Overlap

-- Reads of a key whose operations are issued one after another.
namespace DynamoKV

open Antichain

variable {α : Type} {cfg : Config} {s s' : State α} {l : Label α} {k : Key}

-- The version of the put of the key which was acknowledged last.
def lastAcked (ops : List (Op α)) (k : Key) : Option (Version α) :=
  (Log.latest (fun op => op.key = k ∧ op.request.isPut ∧ op.Acked) ops).bind Op.version

-- All reads which reach their quorum return exactly what was acknowledged last before them.
def ReadsLastAcked (k : Key) (s : State α) : Prop :=
  ∀ (i : Nat) (g : Op α) (o : Outcome α (Version α)), s.ops[i]? = some g → g.key = k →
    g.request = .get → g.outcome = some o → o.response ≠ .error (.readQuorum k) →
    o.response = (lastAcked (s.ops.take i) k).elim (.error <| .notFound k) .ok

abbrev SequentialRun (k : Key) (s : State α) (l : Label α) : Prop :=
  Sequential k s l ∧ PutsAcked k s l ∧ NoDelete k l

theorem exists_put_of_lastAcked (d : Sound cfg s) (h : lastAcked (s.ops.take i) k = some v) :
    ∃ p : Put s k, p.version = v ∧ p.index < i ∧
      ∀ p' : Put s k, p'.op.Acked → p'.index < i → p'.index ≤ p.index := by
  have ⟨a, hl, hv⟩ := Option.bind_eq_some_iff.mp h
  have ⟨hp, j, hj, hlast⟩ := Log.latest_eq_some hl
  have ⟨hka, hput, hack⟩ := of_decide_eq_true hp
  have ⟨hlt, hj⟩ : j < i ∧ s.ops[j]? = some a := by simpa [List.getElem?_take] using hj
  have ⟨p, hi, hpv⟩ := Put.exists_of_acked d hj hka hput hack
  refine ⟨p, Option.some.inj <| hpv.symm.trans hv, hi ▸ hlt, fun p' ha hi' => ?_⟩
  by_contra hgt
  refine hlast p'.index p'.op (by omega) (by rw [List.getElem?_take_of_lt hi', p'.mem]) ?_
  simp [p'.key, p'.isPut d, ha]

section Order

variable (d : Sound cfg s)
  (ord : Ordered (fun a b => a.2.1 = k ∧ b.2.1 = k) (fun a => a.request.isPut → a.Acked) s)
include d ord

theorem ackedBefore_of_lt {i : Nat} {g : Op α} {p : Put s k} (hg : s.ops[i]? = some g)
    (hk : g.key = k) (hi : p.index < i) : p.op.AckedBefore g := by
  have ⟨ha, hr⟩ := ord.before hi p.mem hg ⟨p.key, hk⟩
  exact ⟨ha (p.isPut d), hr⟩

-- Only puts which were acknowledged before a get can be seen by it.
theorem exists_lt_of_seen {i : Nat} {g : Op α} (hg : s.ops[i]? = some g) (hk : g.key = k)
    (hget : ¬g.request.isPut) (ho : g.outcome = some o) (hv : v ∈ o.response.versions) :
    ∃ p : Put s k, p.version = v ∧ p.index < i := by
  subst hk
  have ⟨p, hp, ht⟩ := d.seen hg ho hget hv
  refine ⟨p, hp, ?_⟩
  by_contra hi
  rcases Nat.lt_or_eq_of_le (Nat.le_of_not_lt hi) with hi | rfl
  · have ⟨o', ho', ht'⟩ := (ord.before hi hg p.mem ⟨rfl, p.key⟩).right
    obtain rfl := Option.some.inj (ho.symm.trans ho')
    omega
  · have he := Option.some.inj (hg.symm.trans p.mem)
    rw [he] at hget
    exact hget <| p.isPut d

theorem lastAcked_eq_none {i : Nat} {g : Op α} (hg : s.ops[i]? = some g) (hk : g.key = k)
    (h : lastAcked (s.ops.take i) k = none) (p : Put s k) : ¬p.index < i := by
  intro hi
  have hm : (s.ops.take i)[p.index]? = some p.op := by
    rw [List.getElem?_take_of_lt hi, p.mem]
  have ha := ackedBefore_of_lt d ord hg hk hi |>.left
  rw [lastAcked, Option.bind_eq_none_iff] at h
  cases hl : Log.latest (fun op => op.key = k ∧ op.request.isPut ∧ op.Acked) (s.ops.take i)
  case none   =>
    exact Log.latest_eq_none.mp hl _ (List.mem_of_getElem? hm) <| by simp [p.key, p.isPut d, ha]
  case some a =>
    have ⟨hp, j, hj, _⟩ := Log.latest_eq_some hl
    have ⟨hka, hput, hack⟩ := of_decide_eq_true hp
    have ⟨_, hj⟩ : j < i ∧ s.ops[j]? = some a := by simpa [List.getElem?_take] using hj
    have ⟨_, _, hv⟩ := Put.exists_of_acked d hj hka hput hack
    simp [h a hl] at hv

theorem lastAcked_eq_some {i : Nat} {g : Op α} (hg : s.ops[i]? = some g) (hk : g.key = k)
    (h : lastAcked (s.ops.take i) k = some v) :
    ∃ p : Put s k, p.version = v ∧ p.index < i ∧
      ∀ p' : Put s k, p'.index < i → p'.index ≤ p.index := by
  have ⟨p, hv, hi, hlast⟩ := exists_put_of_lastAcked d h
  exact ⟨p, hv, hi, fun p' hi' => hlast p' (ackedBefore_of_lt d ord hg hk hi').left hi'⟩

end Order

theorem sequential_get_returns_lastAcked (q : cfg.Quorum)
    (r : (cluster cfg α).Reachable (fun s l => SequentialRun k s l ∧ l.CleanKey) s) :
    ReadsLastAcked k s := by
  intro i g o hg hk hget ho hr
  have d    := Sound.of_reachable q r fun _ _ h => h.right
  have kp   := Kept.of_reachable (k := k) q r (fun _ _ h => h.right) fun _ _ h => h.left.right.right
  have ord  := Sequential.ordered (k := k) q r (fun _ _ h => h.right) (fun _ _ h => h.left.left)
    fun _ _ h => h.left.right.left
  have hnp : ¬g.request.isPut := by simp [hget, Request.isPut]
  obtain ⟨hreach, hresp⟩ := ((d.valid hg).answered ho).get hnp
    |>.resolve_left fun h => hr (hk ▸ h.left)
  have hver : o.response.versions = mergeReplies (g.replies cfg) := by
    rw [hresp, versions_getResponse]
  have seen := fun v hv => exists_lt_of_seen (v := v) d ord hg hk hnp ho (hver ▸ hv)
  rw [hresp, hk]
  cases hl : lastAcked (s.ops.take i) k
  case none =>
    have hn : mergeReplies (g.replies cfg) = [] := by
      refine List.eq_nil_iff_forall_not_mem.mpr fun v hv => ?_
      obtain ⟨p, _, hi⟩ := seen v hv
      exact lastAcked_eq_none d ord hg hk hl p hi
    rw [hn]
    rfl
  case some v =>
    obtain ⟨p, hpv, hpi, hlast⟩ := lastAcked_eq_some d ord hg hk hl
    -- Versions made before the last one are strictly below it.
    have below : ∀ x ∈ mergeReplies (g.replies cfg), x ≤ v ∧ (v ≤ x → x = v) := by
      intro x hx
      obtain ⟨p', hpx, hi⟩ := seen x hx
      rcases Nat.lt_or_eq_of_le (hlast p' hi) with hlt | he
      · have hlt := kp.lt q d <| ackedBefore_of_lt d ord p.mem p.key hlt
        rw [hpx, hpv] at hlt
        exact ⟨hlt.le, fun hle => absurd hle hlt.not_ge⟩
      · rw [← hpx, ← hpv, Put.ext he]
        exact ⟨le_rfl, fun _ => rfl⟩
    obtain ⟨x, hx, hle⟩ := kp.covers q d hg hk (ackedBefore_of_lt d ord hg hk hpi) hreach
    rw [hpv] at hle
    have hm : v ∈ mergeReplies (g.replies cfg) := (below x hx).right hle ▸ hx
    rw [(mergeReplies_pairwise _).eq_singleton hm fun y hy => (below y hy).left]
    rfl

section Example

-- The coordinator "a" puts a value, and later "c" gets it, from the replicas "a" and itself.
def putThenGet (key : Key) : List (Label Nat) := [
  .invoke "a" key (.put 7), .read 0 "a", .read 0 "b", .readDone 0 "a" true, .readDone 0 "b" true,
  .putWrite 0 [], .deliver 0 false, .deliver 0 false, .writeDone 0 "b" true, .writeDone 0 "a" true,
  .putReturn 0, .invoke "c" key .get, .read 1 "a", .read 1 "c", .readDone 1 "a" true,
  .readDone 1 "c" true, .getReturn 1]

abbrev afterPutThenGet (key : Key) (P : State Nat → Label Nat → Prop)
    [∀ s l, Decidable (P s l)] : State Nat :=
  (cluster (.ofNodes ["a", "b", "c"] 3 2 2) Nat).after P .initial (putThenGet key)

set_option maxRecDepth 100000 in
theorem sequential_get_returns_lastAcked_three :
    ∃ s : State Nat, (∃ g ∈ s.ops[1]?, ∃ o ∈ g.outcome, o.response.statusCode = 200) ∧
      ReadsLastAcked "k" s :=
  ⟨afterPutThenGet "k" fun s l => SequentialRun "k" s l ∧ l.CleanKey, by decide,
    sequential_get_returns_lastAcked (by decide) (.after rfl _)⟩

-- Peers receive the key "a?b" as "a", so that "c" reads neither what "a" has stored under "a?b",
-- nor what it has stored itself under "a".
set_option maxRecDepth 100000 in
theorem not_readsLastAcked : ¬∀ (cfg : Config) (k : Key) (s : State Nat), cfg.Quorum →
    (cluster cfg Nat).Reachable (SequentialRun k) s → ReadsLastAcked k s := by
  intro h
  have hr := h _ "a?b" (afterPutThenGet "a?b" (SequentialRun "a?b")) (by decide) (.after rfl _)
  have ⟨g, hg, hk, hget, ⟨o, ho, hn⟩, hl⟩ :
      ∃ g ∈ (afterPutThenGet "a?b" (SequentialRun "a?b")).ops[1]?, g.key = "a?b" ∧
        ¬g.request.isPut ∧ (∃ o ∈ g.outcome, o.response.statusCode = 404) ∧
        (lastAcked ((afterPutThenGet "a?b" (SequentialRun "a?b")).ops.take 1) "a?b").isSome := by
    decide
  have ⟨v, hv⟩ := Option.isSome_iff_exists.mp hl
  have he := hr 1 g o hg hk (Request.eq_get hget) ho fun he => by
    simp [he, Response.statusCode, HTTPException.readQuorum] at hn
  rw [hv] at he
  simp [he, Response.statusCode] at hn

end Example
end DynamoKV

import DynamoKV.Execution.Theorems.Overlap

-- What overlapping quorums guarantee whatever else goes on at the same time.
namespace DynamoKV

open Antichain

variable {α : Type} {cfg : Config} {s : State α} {k : Key}

-- What was acknowledged before a request is below what the request finds, or makes.
structure Regular (cfg : Config) (k : Key) (s : State α) : Prop where
  get  : ∀ {p : Put s k} {i : Nat} {g : Op α} {o}, s.ops[i]? = some g → g.key = k →
    ¬g.request.isPut → g.outcome = some o → o.response ≠ .error (.readQuorum k) →
    p.op.AckedBefore g → Covers o.response.versions p.version
  put  : ∀ {p p' : Put s k}, p.op.AckedBefore p'.op → p.version < p'.version
  real : ∀ {i : Nat} {g : Op α} {o v}, s.ops[i]? = some g → g.key = k → ¬g.request.isPut →
    g.outcome = some o → v ∈ o.response.versions →
    ∃ p : Put s k, p.version = v ∧ p.op.started < o.time

theorem regular_of_reachable (q : cfg.Quorum)
    (r : (cluster cfg α).Reachable (fun _ l => NoDelete k l ∧ l.CleanKey) s) : Regular cfg k s := by
  have d  := Sound.of_reachable q r fun _ _ h => h.right
  have kp := Kept.of_reachable (k := k) q r (fun _ _ h => h.right) fun _ _ h => h.left
  refine ⟨fun hg hk hget ho hr ha => ?get, kp.lt q d, fun hg hk hget ho hv => ?real⟩
  case get =>
    rcases ((d.valid hg).answered ho).versions hget with ⟨he, _⟩ | ⟨hreach, hv⟩
    · exact absurd (hk ▸ he) hr
    · exact hv ▸ kp.covers q d hg hk ha hreach
  case real => exact hk ▸ d.seen hg ho hget hv

section Example

-- While a put is acknowledged by "a" and "b", another one only reaches "c", which the get reads
-- first.
def getAfterPuts : List (Label Nat) := [
  .invoke "c" "k" (.put 8), .read 0 "c", .read 0 "a", .readDone 0 "c" true, .readDone 0 "a" true,
  .invoke "a" "k" (.put 7), .read 1 "a", .read 1 "b", .readDone 1 "a" true, .readDone 1 "b" true,
  .putWrite 0 [], .putWrite 1 [], .deliver 2 false, .deliver 2 false, .deliver 2 false,
  .writeDone 1 "a" true, .writeDone 1 "b" true, .putReturn 1, .invoke "b" "k" .get, .read 2 "c",
  .read 2 "a", .readDone 2 "c" true, .readDone 2 "a" true, .getReturn 2]

abbrev afterGetAfterPuts : State Nat :=
  (cluster (.ofNodes ["a", "b", "c"] 3 2 2) Nat).after (fun _ l => NoDelete "k" l ∧ l.CleanKey)
    .initial getAfterPuts

set_option maxRecDepth 100000 in
theorem regular_getAfterPuts : ∃ s : State Nat, (∃ g ∈ s.ops[2]?, ∃ o ∈ g.outcome,
    o.response.versions.map (·.value) = [8, 7]) ∧
    Regular (.ofNodes ["a", "b", "c"] 3 2 2) "k" s :=
  ⟨afterGetAfterPuts, by decide, regular_of_reachable (by decide) (.after rfl _)⟩

end Example
end DynamoKV

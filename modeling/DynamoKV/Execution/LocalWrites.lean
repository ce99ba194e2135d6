import DynamoKV.Objects.Node

-- Concurrent `put_local` calls on one key of one replica. Nothing holds a lock over such a call, so
-- its `StorageBackend.get` and its `StorageBackend.put` are two separate atomic steps.
namespace DynamoKV.LocalWrites

open Antichain

inductive Access
  | get (call : Nat)
  | put (call : Nat)
deriving DecidableEq

def Access.getCall : Access → Option Nat
  | get i => some i
  | put _ => none

def Access.putCall : Access → Option Nat
  | get _ => none
  | put i => some i

variable {α : Type*}

-- `existing` is what each call has read so far.
structure State (α : Type*) where
  node     : Node α
  existing : Nat → List (Version α)

def access (key : Key) (version : Nat → Version α) (s : State α) : Access → State α
  | .get i => { s with existing := Function.update s.existing i (s.node.getLocal key) }
  | .put i => { s with node := s.node.putMerged key (s.existing i) (version i) }

def run (key : Key) (version : Nat → Version α) (node : Node α) (σ : List Access) : State α :=
  σ.foldl (access key version) ⟨node, fun _ => []⟩

-- Each of the calls `0, ..., n - 1` accesses the storage twice, first to get and then to put.
structure Complete (n : Nat) (σ : List Access) : Prop where
  gets  : (σ.filterMap Access.getCall).Perm (List.range n)
  puts  : (σ.filterMap Access.putCall).Perm (List.range n)
  order : σ.Pairwise fun a b => a.putCall.isSome → a.putCall ≠ b.getCall

theorem Complete.get_mem (hc : Complete n σ) (h : σ = pre ++ .put i :: post) : .get i ∈ pre := by
  have hp : i ∈ σ.filterMap Access.putCall := List.mem_filterMap.mpr ⟨.put i, by simp [h], rfl⟩
  have hg : i ∈ σ.filterMap Access.getCall := hc.gets.mem_iff.mpr <| hc.puts.mem_iff.mp hp
  have ⟨a, ha, he⟩ := List.mem_filterMap.mp hg
  cases a <;> simp only [Access.getCall, Option.some.injEq, reduceCtorEq] at he
  subst he h
  simp only [List.mem_append, List.mem_cons, reduceCtorEq, false_or] at ha
  refine ha.resolve_right fun ha => ?_
  have := List.pairwise_append.mp hc.order |>.right.left
  exact List.rel_of_pairwise_cons this ha rfl rfl

-- No call's put falls between the get and the put of another call.
def Undisturbed (σ : List Access) : Prop :=
  ∀ i pre mid post, σ = pre ++ .get i :: mid ++ .put i :: post → ∀ j, .put j ∉ mid

-- Whatever was stored or carried by a call is covered by what is stored in the end.
def KeepsUpdates (α : Type*) (n : Nat) (σ : List Access) : Prop :=
  ∀ key (version : Nat → Version α) (node : Node α),
    let stored := (run key version node σ).node.getLocal key
    (∀ v ∈ node.getLocal key, ∃ w ∈ stored, w.clock.dominatesOrEqual v.clock) ∧
    (∀ i < n, ∃ w ∈ stored, w.clock.dominatesOrEqual (version i).clock)

section Run

variable {key : Key} {version : Nat → Version α} {node : Node α} {σ : List Access} {s : State α}

-- A call whose accesses follow each other is an atomic `put_local`.
theorem access_get_put :
    (access key version (access key version s (.get i)) (.put i)).node =
      s.node.putLocal key (version i) := by
  simp [access, Node.putLocal]

@[simp]
theorem run_append_singleton :
    run key version node (σ ++ [a]) = access key version (run key version node σ) a := by
  simp [run]

theorem existing_foldl_of_not_mem (h : .get i ∉ σ) :
    (σ.foldl (access key version) s).existing i = s.existing i := by
  induction σ generalizing s
  case nil => rfl
  case cons a σ hi =>
    simp only [List.mem_cons, not_or] at h
    rw [List.foldl_cons, hi h.right]
    cases a
    case put   => rfl
    case get j =>
      have hj : i ≠ j := fun e => h.left (congrArg Access.get e)
      exact Function.update_of_ne hj ..

theorem getLocal_access_put :
    (access key version s (.put i)).node.getLocal key = insertMax (s.existing i) (version i) := by
  simp [access, reconcile_eq_insertMax]

end Run

section Kept

variable {key : Key} {version : Nat → Version α} {node : Node α} {σ : List Access}

-- A call which has not been disturbed since its get still knows the current siblings.
theorem existing_eq_getLocal (h : σ = pre ++ .get i :: mid) (hm : ∀ j, .put j ∉ mid) :
    (run key version node σ).existing i = (run key version node σ).node.getLocal key := by
  subst h
  induction mid using List.reverseRecOn
  case nil => rw [run_append_singleton]; exact Function.update_self ..
  case append_singleton mid a hi =>
    specialize hi fun j hj => hm j <| by simp [hj]
    rw [← List.cons_append, ← List.append_assoc, run_append_singleton]
    cases a
    case put j => exact absurd (by simp) (hm j)
    case get j =>
      by_cases hj : i = j
      case pos => exact hj ▸ Function.update_self ..
      case neg => exact (Function.update_of_ne hj ..).trans hi

-- The induction is on the part of the schedule executed so far, `σ` without `post`.
theorem covers_of_undisturbed (key : Key) (version : Nat → Version α) (node : Node α)
    (hu : Undisturbed τ) (hc : Complete n τ) (h : τ = σ ++ post) :
    (∀ v ∈ node.getLocal key, Covers ((run key version node σ).node.getLocal key) v) ∧
    (∀ i, .put i ∈ σ → Covers ((run key version node σ).node.getLocal key) (version i)) := by
  induction σ using List.reverseRecOn generalizing post
  case nil => exact ⟨fun _ => .of_mem, by simp⟩
  case append_singleton σ a hi =>
    have h' : τ = σ ++ a :: post := by simp [h]
    have ⟨h₁, h₂⟩ := hi h'
    rw [run_append_singleton]
    cases a
    case get j =>
      refine ⟨h₁, fun i hm => h₂ i ?_⟩
      simpa using hm
    case put j =>
      have hg := hc.get_mem (show τ = σ ++ .put j :: post by simp [h])
      have ⟨pre, mid, hσ⟩ := List.append_of_mem hg
      have hm := hu j pre mid post (by simp [h, hσ])
      rw [getLocal_access_put, existing_eq_getLocal hσ hm]
      refine ⟨fun v hv => (h₁ v hv).insertMax _, fun i hi => ?_⟩
      simp only [List.mem_append, List.mem_singleton, Access.put.injEq] at hi
      rcases hi with hi | rfl
      · exact (h₂ i hi).insertMax _
      · exact .insertMax_self ..

end Kept

section Lost

-- Pairwise concurrent versions, one for each call.
def distinctVersion (a : α) (i : Nat) : Version α :=
  ⟨a, VectorClock.incremented ⟨∅⟩ <| String.ofList <| List.replicate i 'n'⟩

theorem distinctVersion_not_le {a : α} (h : i ≠ j) :
    ¬distinctVersion a i ≤ distinctVersion a j := by
  intro hle
  have hn : String.ofList (List.replicate i 'n') ≠ String.ofList (List.replicate j 'n') := by
    intro he
    have := congrArg (·.toList.length) he
    simp only [String.toList_ofList, List.length_replicate] at this
    exact h this
  have := hle <| String.ofList (List.replicate i 'n')
  simp [distinctVersion, VectorClock.get_incremented_of_ne hn] at this

variable {key : Key} {version : Nat → Version α} {σ τ : List Access}

def puts (σ : List Access) : Nat :=
  (σ.filterMap Access.putCall).length

@[simp]
theorem puts_nil : puts [] = 0 :=
  rfl

@[simp]
theorem puts_cons_get : puts (.get i :: σ) = puts σ :=
  rfl

@[simp]
theorem puts_cons_put : puts (.put i :: σ) = puts σ + 1 :=
  rfl

@[simp]
theorem puts_append : puts (σ ++ τ) = puts σ + puts τ := by
  simp [puts]

theorem puts_pos (h : .put i ∈ σ) : 0 < puts σ :=
  List.length_pos_of_mem <| List.mem_filterMap.mpr ⟨_, h, rfl⟩

theorem length_insertMax_le {β : Type*} [Preorder β] [DecidableLE β] (xs : List β) (x : β) :
    (insertMax xs x).length ≤ xs.length + 1 := by
  unfold insertMax
  split
  case isTrue  => omega
  case isFalse =>
    have := List.length_filter_le (fun y => decide ¬y ≤ x) xs
    simp only [List.length_append, List.length_singleton]
    omega

theorem getLocal_subset :
    (∀ v ∈ (run key version .empty σ).node.getLocal key, ∃ i, v = version i) ∧
    (∀ j, ∀ v ∈ (run key version .empty σ).existing j, ∃ i, v = version i) := by
  induction σ using List.reverseRecOn
  case nil => simp [run]
  case append_singleton σ a hi =>
    rw [run_append_singleton]
    cases a
    case get j =>
      refine ⟨hi.left, fun k v hv => ?_⟩
      by_cases hk : k = j
      case pos => exact hi.left v <| by simpa [access, hk] using hv
      case neg => exact hi.right k v <| by simpa [access, hk] using hv
    case put j =>
      refine ⟨fun v hv => ?_, hi.right⟩
      rw [getLocal_access_put] at hv
      exact (mem_insertMax hv).elim (hi.right j v) (⟨j, ·⟩)

-- Each put adds at most one version to what its call has read.
theorem length_le_puts (key : Key) (version : Nat → Version α) (σ : List Access) :
    ((run key version .empty σ).node.getLocal key).length ≤ puts σ ∧
    (∀ i, ((run key version .empty σ).existing i).length ≤ puts σ) := by
  induction σ using List.reverseRecOn
  case nil => simp [run]
  case append_singleton σ a hi =>
    rw [run_append_singleton, puts_append]
    cases a
    case get j =>
      refine ⟨hi.left, fun k => ?_⟩
      by_cases hk : k = j
      case pos => simpa [access, hk] using hi.left
      case neg => simpa [access, hk] using hi.right k
    case put j =>
      have := length_insertMax_le ((run key version .empty σ).existing j) (version j)
      rw [getLocal_access_put]
      exact ⟨this.trans <| Nat.succ_le_succ <| hi.right j, fun i => Nat.le_succ_of_le <| hi.right i⟩

-- What a call reads is not affected by the accesses between its get and its put.
theorem length_existing_le (pre : List Access) (hi : .get i ∉ mid) :
    ((run key version .empty (pre ++ .get i :: mid)).existing i).length ≤ puts pre := by
  rw [run, List.foldl_append, List.foldl_cons, existing_foldl_of_not_mem hi]
  simpa [access, run] using length_le_puts key version pre |>.left

-- A put which overwrites another leaves a deficit, and no later call can make up for it.
theorem length_lt_puts {pre mid post : List Access} (h : σ = pre ++ .get i :: mid ++ .put i :: post)
    (hj : .put j ∈ mid) (hi : .get i ∉ mid) :
    ((run key version .empty σ).node.getLocal key).length < puts σ ∧
    (∀ k, ((run key version .empty σ).existing k).length < puts σ) := by
  subst h
  induction post using List.reverseRecOn
  case nil =>
    rw [run_append_singleton, getLocal_access_put, puts_append]
    set s := run key version .empty (pre ++ .get i :: mid) with hs
    have hall  := length_le_puts key version (pre ++ .get i :: mid)
    have hread : (s.existing i).length ≤ puts pre := length_existing_le pre hi
    have hins  := length_insertMax_le (s.existing i) (version i)
    have hmid  := puts_pos hj
    rw [← hs] at hall
    constructor
    case left  => simp only [puts_append, puts_cons_get, puts_cons_put]; omega
    case right => exact fun k => Nat.lt_succ_of_le <| hall.right k
  case append_singleton post a ih =>
    rw [← List.cons_append, ← List.append_assoc, run_append_singleton, puts_append]
    cases a
    case get k =>
      refine ⟨ih.left, fun l => ?_⟩
      by_cases hl : l = k
      case pos => simpa [access, hl] using ih.left
      case neg => simpa [access, hl] using ih.right l
    case put k =>
      rw [getLocal_access_put]
      refine ⟨?_, fun l => Nat.lt_succ_of_lt <| ih.right l⟩
      exact length_insertMax_le _ _ |>.trans_lt <| Nat.succ_lt_succ <| ih.right k

theorem length_ge_of_keepsUpdates (a : α) (hk : KeepsUpdates α n σ) :
    n ≤ ((run "" (distinctVersion a) .empty σ).node.getLocal "").length := by
  set stored := (run "" (distinctVersion a) .empty σ).node.getLocal ""
  have hmem : ∀ i < n, distinctVersion a i ∈ stored := by
    intro i hi
    have ⟨w, hw, hle⟩ := (hk "" (distinctVersion a) .empty).right i hi
    obtain ⟨j, rfl⟩ := getLocal_subset.left w hw
    rw [VectorClock.dominatesOrEqual_iff] at hle
    by_cases hij : i = j
    case pos => exact hij ▸ hw
    case neg => exact absurd hle <| distinctVersion_not_le hij
  have hnd : ((List.range n).map (distinctVersion a)).Nodup := by
    refine List.Nodup.map ?_ List.nodup_range
    intro i j he
    by_contra hij
    exact distinctVersion_not_le hij <| le_of_eq he
  have hsub : (List.range n).map (distinctVersion a) ⊆ stored := by
    intro v hv
    obtain ⟨i, hi, rfl⟩ := List.mem_map.mp hv
    exact hmem i <| List.mem_range.mp hi
  simpa using (hnd.subperm hsub).length_le

end Lost

-- The schedules of `put_local` calls under which no update is lost are those in which no call puts
-- between the get and the put of another one.
theorem keepsUpdates_iff_undisturbed [Nonempty α] (hc : Complete n σ) :
    KeepsUpdates α n σ ↔ Undisturbed σ := by
  constructor
  case mp =>
    intro hk i pre mid post h j hj
    have ⟨a⟩ := ‹Nonempty α›
    have hn : puts σ = n := by simpa [puts] using hc.puts.length_eq
    have hi : .get i ∉ mid := by
      intro hm
      have hnd := hc.gets.nodup_iff.mpr List.nodup_range
      have ⟨l, r, hlr⟩ := List.append_of_mem hm
      subst h hlr
      simp [List.filterMap_append, Access.getCall, List.nodup_append] at hnd
    have hge := length_ge_of_keepsUpdates a hk
    have hlt : ((run "" (distinctVersion a) .empty σ).node.getLocal "").length < puts σ :=
      length_lt_puts h hj hi |>.left
    omega
  case mpr =>
    intro hu key version node
    have ⟨h₁, h₂⟩ := covers_of_undisturbed key version node hu hc (List.append_nil σ).symm
    simp only [VectorClock.dominatesOrEqual_iff]
    refine ⟨h₁, fun i hi => h₂ i ?_⟩
    have hm : i ∈ σ.filterMap Access.putCall := hc.puts.mem_iff.mpr <| List.mem_range.mpr hi
    have ⟨b, hb, he⟩ := List.mem_filterMap.mp hm
    cases b <;> simp [Access.putCall] at he
    exact he ▸ hb

theorem keepsUpdates_iff_undisturbed_two :
    Complete 2 [.get 0, .put 0, .get 1, .put 1] ∧
    (KeepsUpdates Nat 2 [.get 0, .put 0, .get 1, .put 1] ↔
      Undisturbed [.get 0, .put 0, .get 1, .put 1]) :=
  have hc : Complete 2 [.get 0, .put 0, .get 1, .put 1] := ⟨by decide, by decide, by decide⟩
  ⟨hc, keepsUpdates_iff_undisturbed hc⟩

-- Both calls find the key empty, so the put of the second one overwrites that of the first.
theorem not_forall_keepsUpdates : ¬∀ n σ, Complete n σ → KeepsUpdates Nat n σ := by
  intro h
  have hc : Complete 2 [.get 0, .get 1, .put 0, .put 1] := ⟨by decide, by decide, by decide⟩
  have hk := (h _ _ hc "k" (distinctVersion 7) .empty).right 0 (by decide)
  revert hk
  decide

end DynamoKV.LocalWrites

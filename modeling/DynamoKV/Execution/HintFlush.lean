import DynamoKV.Lib.Transition
import DynamoKV.Objects.HintStore

-- A holder's hints for one target, which are added while any number of flushes are going on. The
-- steps of a flush are the read of the pending hints, each PUT, which the target answers with 200,
-- and each `clear_key`. Only `add` and `clear_key` hold the lock, and each of them only by itself.
namespace DynamoKV.HintFlush

-- An execution of `_flush_hints_for`, with the PUTs it has yet to make and the key it has yet to
-- clear.
structure Flusher (α : Type) where
  todo     : List (Key × Version α)
  clearing : Option Key

-- Answered PUTs and completed adds are recorded.
structure State (α : Type) where
  hintStore : HintStore α
  flushers  : List (Flusher α)
  answered  : List (Key × Version α)
  added     : List (Key × Version α)

inductive Label (α : Type)
  | add (key : Key) (version : Version α)
  | snapshot
  | put (flusher : Nat)
  | clear (flusher : Nat)

variable {α : Type}

def step (target : NodeId) (s : State α) : Label α → Option (State α)
  | .add key version => some { s with
      hintStore := s.hintStore.add target key version
      added     := s.added ++ [(key, version)] }
  | .snapshot        =>
    let todo := s.hintStore.pendingFor target |>.flatMap fun (key, versions) =>
      versions.map (key, ·)
    some { s with flushers := s.flushers ++ [⟨todo, none⟩] }
  | .put i           => do
    let f ← s.flushers[i]?
    guard (f.clearing = none)
    let (key, version) ← f.todo.head?
    return { s with
      flushers := s.flushers.set i ⟨f.todo.tail, some key⟩
      answered := s.answered ++ [(key, version)] }
  | .clear i         => do
    let f ← s.flushers[i]?
    let key ← f.clearing
    return { s with
      hintStore := s.hintStore.clearKey target key
      flushers  := s.flushers.set i { f with clearing := none } }

def system (α : Type) (target : NodeId) : TransitionSystem (State α) (Label α) where
  init s := s = ⟨.empty, [], [], []⟩
  step   := step target

-- A version which covers the given one was answered.
def Delivered (s : State α) (key : Key) (v : Version α) : Prop :=
  ∃ u ∈ s.answered, u.1 = key ∧ u.2.clock.dominatesOrEqual v.clock

def Pending (target : NodeId) (s : State α) (key : Key) (v : Version α) : Prop :=
  ∃ u ∈ s.hintStore.pending target key, u.clock.dominatesOrEqual v.clock

def NoHintLost (target : NodeId) (s : State α) : Prop :=
  ∀ a ∈ s.added, Pending target s a.1 a.2 ∨ Delivered s a.1 a.2

-- The key which a step clears.
def cleared (s : State α) : Label α → Option Key
  | .clear i                       => s.flushers[i]?.bind (·.clearing)
  | .add _ _ | .snapshot | .put _  => none

-- When a key is cleared, all that is pending under it has been delivered.
def ClearsDelivered (target : NodeId) (s : State α) (l : Label α) : Prop :=
  ∀ key ∈ cleared s l, ∀ v ∈ s.hintStore.pending target key, Delivered s key v

instance : Decidable (Delivered s key v) :=
  inferInstanceAs (Decidable (∃ u ∈ s.answered, _))

instance : Decidable (Pending target s key v) :=
  inferInstanceAs (Decidable (∃ u ∈ s.hintStore.pending target key, _))

instance : Decidable (NoHintLost target s) :=
  inferInstanceAs (Decidable (∀ a ∈ s.added, _))

instance : Decidable (ClearsDelivered target s l) :=
  inferInstanceAs (Decidable (∀ key ∈ cleared s l, _))

-- What a step does to what is pending, and to the records.
inductive Effect (target : NodeId) (s : State α) : Label α → State α → Prop
  | add : s'.hintStore = s.hintStore.add target key v → s'.added = s.added ++ [(key, v)] →
    s'.answered = s.answered → Effect target s (.add key v) s'
  | keep : cleared s l = none → s'.hintStore = s.hintStore → s'.added = s.added →
    s.answered ⊆ s'.answered → Effect target s l s'
  | clear : cleared s l = some key → s'.hintStore = s.hintStore.clearKey target key →
    s'.added = s.added → s'.answered = s.answered → Effect target s l s'

section Steps

variable {target : NodeId} {s s' : State α} {l : Label α} {key : Key} {v : Version α}

theorem effect (h : step target s l = some s') : Effect target s l s' := by
  cases l
  case add key v =>
    cases Option.some.inj h
    exact .add rfl rfl rfl
  case snapshot =>
    cases Option.some.inj h
    exact .keep rfl rfl rfl fun _ h => h
  case put i =>
    have ⟨f, _, h⟩ := Option.bind_eq_some_iff.mp h
    have ⟨_, _, h⟩ := Option.bind_eq_some_iff.mp h
    have ⟨(key, v), _, h⟩ := Option.bind_eq_some_iff.mp h
    cases Option.some.inj h
    exact .keep rfl rfl rfl <| List.subset_append_left ..
  case clear i =>
    have ⟨f, hf, h⟩ := Option.bind_eq_some_iff.mp h
    have ⟨key, hk, h⟩ := Option.bind_eq_some_iff.mp h
    cases Option.some.inj h
    exact .clear (by simp [cleared, hf, hk]) rfl rfl rfl

theorem Delivered.mono (h : Delivered s key v) (hs : s.answered ⊆ s'.answered) :
    Delivered s' key v := by
  have ⟨u, hu, hk⟩ := h
  exact ⟨u, hs hu, hk⟩

theorem pending_iff :
    Pending target s key v ↔ Antichain.Covers (s.hintStore.pending target key) v := by
  simp [Pending, Antichain.Covers, VectorClock.dominatesOrEqual_iff, Version.le_def]

theorem Pending.add (h : Pending target s key v)
    (hs : s'.hintStore = s.hintStore.add target key' w) : Pending target s' key v := by
  rw [pending_iff] at h ⊢
  rw [hs]
  by_cases hk : key = key'
  case pos =>
    subst hk
    rw [HintStore.pending_add_self, reconcile_eq_insertMax]
    exact h.insertMax w
  case neg => rwa [HintStore.pending_add_of_ne (.inr hk)]

theorem pending_add_self (hs : s'.hintStore = s.hintStore.add target key v) :
    Pending target s' key v := by
  rw [pending_iff, hs, HintStore.pending_add_self, reconcile_eq_insertMax]
  exact .insertMax_self ..

theorem NoHintLost.step (h : NoHintLost target s) (hp : ClearsDelivered target s l)
    (e : Effect target s l s') : NoHintLost target s' := by
  intro a ha
  cases e
  case add key v hs hadd hans =>
    cases List.mem_append.mp <| hadd ▸ ha
    case inl ha => exact (h a ha).imp (·.add hs) (·.mono <| hans ▸ List.Subset.refl _)
    case inr ha =>
      cases List.mem_singleton.mp ha
      exact .inl <| pending_add_self hs
  case keep hs hadd hans =>
    refine (h a <| hadd ▸ ha).imp (fun hp => ?_) (·.mono hans)
    rwa [Pending, hs]
  case clear key hk hs hadd hans =>
    have hans : s.answered ⊆ s'.answered := hans ▸ List.Subset.refl _
    cases h a <| hadd ▸ ha
    case inr hd => exact .inr <| hd.mono hans
    case inl hpend =>
      by_cases hkey : a.1 = key
      case neg =>
        left
        rwa [Pending, hs, HintStore.pending_clearKey_of_ne (.inr hkey)]
      case pos =>
        -- What covers the version was delivered, so the version is covered by what was answered.
        have ⟨u, hu, huv⟩ := hpend
        have ⟨w, hw, hwk, hwu⟩ := hp key hk u <| hkey ▸ hu
        refine .inr ⟨w, hans hw, hwk.trans hkey.symm, ?_⟩
        rw [VectorClock.dominatesOrEqual_iff] at *
        exact huv.trans hwu

-- Whatever is pending was added.
def PendingAdded (target : NodeId) (s : State α) : Prop :=
  ∀ key, ∀ v ∈ s.hintStore.pending target key, (key, v) ∈ s.added

theorem PendingAdded.step (h : PendingAdded target s) (e : Effect target s l s') :
    PendingAdded target s' := by
  intro key v hv
  cases e
  case add key' w hs hadd _ =>
    rw [hs] at hv
    rw [hadd, List.mem_append, List.mem_singleton]
    by_cases hk : key = key'
    case neg => exact .inl <| h key v <| by rwa [HintStore.pending_add_of_ne (.inr hk)] at hv
    case pos =>
      subst hk
      rw [HintStore.pending_add_self, reconcile_eq_insertMax] at hv
      exact (Antichain.mem_insertMax hv).imp (h key v) (congrArg _)
  case keep hs hadd _ => exact hadd ▸ h key v (hs ▸ hv)
  case clear key' _ hs hadd _ =>
    rw [hs] at hv
    by_cases hk : key = key'
    case neg => exact hadd ▸ h key v <| by rwa [HintStore.pending_clearKey_of_ne (.inr hk)] at hv
    case pos => simp [hk] at hv

theorem pendingAdded_of_reachable (r : (system α target).Reachable P s) :
    PendingAdded target s := by
  refine r.invariant (fun s hs => ?_) fun _ _ _ _ _ e h => h.step <| effect e
  intro key v hv
  cases hs
  simp at hv

end Steps

-- No hint is lost as long as keys are only cleared when all that is pending under them has been
-- delivered, and every other clearing of a key loses one.
theorem noHintLost_iff_clearsDelivered (α : Type) (target : NodeId) :
    (∀ s, (system α target).Reachable (ClearsDelivered target) s → NoHintLost target s) ∧
    ∀ s l s', (system α target).Reachable (fun _ _ => True) s →
      (system α target).step s l = some s' → NoHintLost target s' → ClearsDelivered target s l := by
  constructor
  case left =>
    intro s r
    refine r.invariant (fun s hs => ?_) fun _ _ _ _ hp e h => h.step hp <| effect e
    cases hs
    simp [NoHintLost]
  case right =>
    intro s l s' r e h key hk v hv
    have ha := pendingAdded_of_reachable r key v hv
    cases effect e
    case add  => simp [cleared] at hk
    case keep => simp_all
    case clear key' hk' hs hadd hans =>
      cases Option.some.inj <| (Option.mem_def.mp hk).symm.trans hk'
      cases h (key, v) <| hadd ▸ ha
      case inl hp => simp [Pending, hs] at hp
      case inr hd => exact hd.mono <| hans ▸ List.Subset.refl _

-- The second hint is added between the PUT of a flush and its `clear_key`.
def first : Version Nat :=
  ⟨1, ⟨AList.singleton "n" 1⟩⟩

def second : Version Nat :=
  ⟨2, ⟨AList.singleton "n" 2⟩⟩

set_option maxRecDepth 100000 in
theorem noHintLost_iff_clearsDelivered_two : ∃ s : State Nat,
    s.added.map (·.2.value) = [1, 2] ∧ s.answered.map (·.2.value) = [1, 2] ∧
      (s.hintStore.pending "t" "k").isEmpty ∧ NoHintLost "t" s := by
  -- Another flush brings it to the target before the key is cleared.
  let labels : List (Label Nat) :=
    [.add "k" first, .snapshot, .put 0, .add "k" second, .snapshot, .put 1, .clear 0]
  let s := (system Nat "t").after (ClearsDelivered "t") ⟨.empty, [], [], []⟩ labels
  have r : (system Nat "t").Reachable (ClearsDelivered "t") s := .after rfl labels
  exact ⟨s, by decide, by decide, by decide, (noHintLost_iff_clearsDelivered Nat "t").left s r⟩

set_option maxRecDepth 100000 in
theorem not_noHintLost :
    ¬∀ s, (system Nat "t").Reachable (fun _ _ => True) s → NoHintLost "t" s := by
  intro h
  let labels : List (Label Nat) :=
    [.add "k" first, .snapshot, .put 0, .add "k" second, .clear 0]
  have h := h _ <| .after (P := fun _ _ => True) (s := ⟨.empty, [], [], []⟩) rfl labels
  revert h
  decide

end DynamoKV.HintFlush

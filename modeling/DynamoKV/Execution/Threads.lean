import DynamoKV.Execution.Theorems.Replicas
import DynamoKV.Lib.Transition

-- The cluster as the threads of its nodes run it. Nothing holds a lock over `put_local`, so a
-- replica may handle other requests between its `StorageBackend.get` and its `StorageBackend.put`.
-- A put ends with an exception if the request which leaves a hint cannot be built.
namespace DynamoKV.Threads

variable {α : Type}

-- `existing` is what the handler of a message in flight has read from the storage. Puts in `raised`
-- have ended with an exception which is no response.
structure State (α : Type) where
  cluster  : DynamoKV.State α
  existing : Nat → Option (List (Version α))
  raised   : List Nat

-- The `get` of `put_local` is a step of its own. Its `put` ends the handling of the message.
inductive Label (α : Type)
  | request (label : DynamoKV.Label α)
  | get (message : Nat)
  | raise (op : Nat) (down : List NodeId)

-- What `put_local` and its caller do once the siblings have been read.
def finish (c : DynamoKV.State α) (existing : List (Version α)) : Message α → DynamoKV.State α
  | .put i dest (some key) version =>
    c.modifyNode dest (·.putMerged key existing version) |>.modifyOp i (·.handleWrite dest)
  | .flush holder dest hintKey (some key) version =>
    c.modifyNode dest (·.putMerged key existing version) |>.send [.flushed holder dest hintKey]
  | message => c.handle message

variable (cfg : Config) (builds : Key → α → Bool)

namespace State

variable (s : State α)

def initial : State α where
  cluster    := .initial
  existing _ := none
  raised     := []

def get (m : Nat) : Option (State α) := do
  let (dest, key, _) ← s.cluster.net[m]? >>= Message.stored
  guard (s.existing m).isNone
  return { s with
    existing := Function.update s.existing m <| some <| (s.cluster.node dest).getLocal key }

def deliver (m : Nat) (again : Bool) : Option (DynamoKV.State α) := do
  let message ← s.cluster.net[m]?
  if message.stored.isNone then DynamoKV.step cfg s.cluster (.deliver m again)
  else
    let existing ← s.existing m
    let rest := if again then s.cluster.net else s.cluster.net.eraseIdx m
    return finish { s.cluster with net := rest } existing message |>.tick

-- A message which is handled or lost is taken off the net, so others move up.
def remaining : DynamoKV.Label α → Nat → Option (List (Version α))
  | .deliver m true             => Function.update s.existing m none
  | .deliver m false | .lose m  => fun i => s.existing <| if i < m then i else i + 1
  | _                           => s.existing

-- The put at `i` does not get to its replica writes.
def Raises (i : Nat) (down : List NodeId) : Prop :=
  ∃ op ∈ s.cluster.ops[i]?, op.write.isNone ∧ op.ReadFinished cfg ∧ op.coord ∉ down ∧
    op.read.Reached (cfg.readThreshold op.prefs) ∧ op.HintRaises cfg builds down

instance : Decidable (s.Raises cfg builds i down) :=
  inferInstanceAs (Decidable (∃ op ∈ s.cluster.ops[i]?, _))

def request : DynamoKV.Label α → Option (DynamoKV.State α)
  | .deliver m again => s.deliver cfg m again
  | .putWrite i down => do
    guard (i ∉ s.raised ∧ ¬s.Raises cfg builds i down)
    DynamoKV.step cfg s.cluster (.putWrite i down)
  | l                => DynamoKV.step cfg s.cluster l

def step : Label α → Option (State α)
  | .request l    =>
    (s.request cfg builds l).map ({ s with cluster := ·, existing := s.remaining l })
  | .get m        => s.get m
  | .raise i down => do
    guard (i ∉ s.raised ∧ s.Raises cfg builds i down)
    return { s with raised := s.raised ++ [i] }

end State

def system : TransitionSystem (State α) (Label α) where
  init s := s = .initial
  step   := State.step cfg builds

-- When the siblings of a key are changed at a replica, no `put_local` of that key has read them
-- there and not yet stored what it makes of them.
def Undisturbed (s : State α) : DynamoKV.Label α → Prop
  | .deliver m _ => ∀ x ∈ s.cluster.net[m]? >>= Message.changed,
    ∀ m' < s.cluster.net.length, m' ≠ m → (s.existing m').isSome →
      (s.cluster.net[m']? >>= Message.changed) ≠ some x
  | _ => True

instance : Decidable (Undisturbed s l : Prop) :=
  match l with
  | .deliver _ _ => inferInstanceAs (Decidable (∀ x ∈ _, _))
  | .invoke _ _ _ | .read _ _ | .readDone _ _ _ | .getReturn _ | .putWrite _ _ | .writeDone _ _ _
  | .putReturn _ | .invokeDelete _ _ | .deleteDone _ _ _ | .deleteReturn _ | .lose _ | .flush _ _ =>
    inferInstanceAs (Decidable True)

-- The value of a put can be sent under its key.
def Builds : DynamoKV.Label α → Prop
  | .invoke _ key q => q.Builds builds key
  | _               => True

instance : DecidablePred (Builds builds : DynamoKV.Label α → Prop)
  | .invoke _ _ _ => inferInstanceAs (Decidable (Request.Builds _ _ _))
  | .read _ _ | .readDone _ _ _ | .getReturn _ | .putWrite _ _ | .writeDone _ _ _ | .putReturn _
  | .invokeDelete _ _ | .deleteDone _ _ _ | .deleteReturn _ | .deliver _ _ | .lose _ | .flush _ _ =>
    inferInstanceAs (Decidable True)

-- A restriction of the steps of the cluster, in which no `put_local` is disturbed.
def On (P : DynamoKV.State α → DynamoKV.Label α → Prop) (s : State α) : Label α → Prop
  | .request l         => Undisturbed s l ∧ P s.cluster l
  | .get _ | .raise _ _ => True

instance {P : DynamoKV.State α → DynamoKV.Label α → Prop} [∀ s l, Decidable (P s l)] :
    Decidable (On P s l : Prop) :=
  match l with
  | .request _          => inferInstanceAs (Decidable (_ ∧ _))
  | .get _ | .raise _ _ => inferInstanceAs (Decidable True)

-- What a step does, apart from what it does to the handlers.
inductive Effect (cfg : Config) (builds : Key → α → Bool) (s : State α) : Label α → State α → Prop
  | request : DynamoKV.step cfg s.cluster l = some c →
    Effect cfg builds s (.request l) ⟨c, existing, s.raised⟩
  | get : Effect cfg builds s (.get m) ⟨s.cluster, existing, s.raised⟩
  | raise : s.Raises cfg builds i down →
    Effect cfg builds s (.raise i down) ⟨s.cluster, existing, s.raised ++ [i]⟩

variable {cfg} {builds} {s s' : State α} {l : DynamoKV.Label α}

section Atomic

-- What has been read is still what is stored.
def Current (s : State α) : Prop :=
  ∀ m existing, s.existing m = some existing → ∃ x, s.cluster.net[m]? >>= Message.stored = some x ∧
    existing = (s.cluster.node x.1).getLocal x.2.1

theorem finish_eq_handle {c : DynamoKV.State α} {message : Message α} (h : message.stored = some x)
    (he : existing = (c.node x.1).getLocal x.2.1) :
    finish c existing message = c.handle message := by
  unfold Message.stored at h
  split at h
  case h_1 | h_2 =>
    cases Option.some.inj h
    subst he
    rfl
  case h_3 => contradiction

-- A message whose siblings have been read is handled as if they were read just now.
theorem deliver_eq (cu : Current s) (hs : ∀ message, s.cluster.net[m]? = some message →
      message.stored.isNone ∨ (s.existing m).isSome) :
    s.deliver cfg m again = DynamoKV.step cfg s.cluster (.deliver m again) := by
  unfold State.deliver
  cases hm : s.cluster.net[m]?
  case none         => simp [DynamoKV.step, DynamoKV.State.next, DynamoKV.State.deliver, hm]
  case some message =>
    simp only [Option.bind_eq_bind, Option.bind_some]
    split
    case isTrue     => rfl
    case isFalse hn =>
      obtain ⟨existing, he⟩ := Option.isSome_iff_exists.mp <| (hs message hm).resolve_left hn
      obtain ⟨x, hx, hc⟩ := cu m existing he
      rw [hm] at hx
      let rest := if again then s.cluster.net else s.cluster.net.eraseIdx m
      have hf := finish_eq_handle (c := { s.cluster with net := rest }) hx hc
      simp only [DynamoKV.step, DynamoKV.State.next, DynamoKV.State.deliver, hm, he]
      exact congrArg (some <| DynamoKV.State.tick ·) hf

theorem deliver_eq_some (cu : Current s) (h : s.deliver cfg m again = some c) :
    DynamoKV.step cfg s.cluster (.deliver m again) = some c := by
  rw [← deliver_eq cu, h]
  intro message hm
  obtain ⟨message', hm', h⟩ := Option.bind_eq_some_iff.mp h
  cases Option.some.inj <| hm.symm.trans hm'
  split at h
  case isTrue hn => exact .inl hn
  case isFalse   =>
    obtain ⟨existing, he, _⟩ := Option.bind_eq_some_iff.mp h
    exact .inr <| he ▸ rfl

theorem request_eq_some (cu : Current s) (h : s.request cfg builds l = some c) :
    DynamoKV.step cfg s.cluster l = some c := by
  cases l
  case deliver m again => exact deliver_eq_some cu h
  case putWrite i down => exact (Option.bind_eq_some_iff.mp h).choose_spec.right
  all_goals exact h

theorem getElem?_eraseIdx (ms : List β) (i m : Nat) :
    (ms.eraseIdx i)[m]? = ms[if m < i then m else m + 1]? := by
  rw [List.getElem?_eraseIdx]
  split <;> rfl

-- The message whose handling goes on has not been delivered by the step.
theorem exists_of_remaining (h : s.remaining l m = some existing) :
    ∃ j, s.existing j = some existing ∧ (s.cluster.left l)[m]? = s.cluster.net[j]? ∧
      ∀ m₀ again, l = .deliver m₀ again → j ≠ m₀ := by
  cases l
  case deliver m₀ again =>
    cases again
    case true =>
      have hm : m ≠ m₀ := by
        rintro rfl
        simp [State.remaining] at h
      refine ⟨m, by simpa [State.remaining, hm] using h, rfl, fun _ _ hl => ?_⟩
      cases hl
      exact hm
    case false =>
      refine ⟨_, h, getElem?_eraseIdx .., fun _ _ hl => ?_⟩
      cases hl
      split <;> omega
  case lose m₀ => exact ⟨_, h, getElem?_eraseIdx .., nofun⟩
  all_goals exact ⟨m, h, rfl, nofun⟩

theorem Current.request (cu : Current s) (hu : Undisturbed s l)
    (h : DynamoKV.step cfg s.cluster l = some c) : Current ⟨c, s.remaining l, s.raised⟩ := by
  intro m existing he
  obtain ⟨j, hj, hl, hne⟩ := exists_of_remaining he
  obtain ⟨x, hx, rfl⟩ := cu j existing hj
  obtain ⟨message, hm, hs⟩ := Option.bind_eq_some_iff.mp hx
  refine ⟨x, ?_, ?_⟩
  · obtain ⟨sent, hsent⟩ := left_prefix_step h
    have hn : c.net[m]? = some message := by
      rw [← hsent, List.getElem?_append_left (List.getElem?_eq_some_iff.mp <| hl.trans hm).choose,
        hl, hm]
    simp [hn, hs]
  · have hj' : j < s.cluster.net.length := (List.getElem?_eq_some_iff.mp hm).choose
    rw [getLocal_step h]
    cases hd : s.cluster.delivered l
    case none           => rfl
    case some message₀ =>
      cases l <;> try contradiction
      case deliver m₀ again =>
        have hd : s.cluster.net[m₀]? = some message₀ := hd
        have hx₀ : s.cluster.net[m₀]? >>= Message.changed = message₀.changed := by rw [hd]; rfl
        have hx : s.cluster.net[j]? >>= Message.changed = some (x.1, x.2.1) := by
          rw [hm]
          exact Message.changed_of_stored hs
        refine (Message.store_of_changed_ne (fun hc => ?_) _).symm
        exact hu _ (hx₀.trans hc) j hj' (hne _ _ rfl) (by simp [hj]) hx

theorem Current.get (cu : Current s) (h : s.get m = some s') : Current s' := by
  obtain ⟨⟨dest, key, v⟩, hx, h⟩ := Option.bind_eq_some_iff.mp h
  obtain ⟨_, _, h⟩ := Option.bind_eq_some_iff.mp h
  cases Option.some.inj h
  intro m' existing he
  by_cases hm : m' = m
  case neg => exact cu m' existing <| by simpa [hm] using he
  case pos =>
    subst hm
    exact ⟨_, hx, by simpa using he.symm⟩

-- Where no `put_local` is disturbed, it might as well be executed at once.
theorem Current.step {P : DynamoKV.State α → DynamoKV.Label α → Prop} {l : Label α} (cu : Current s)
    (hp : On P s l) (h : s.step cfg builds l = some s') :
    Effect cfg builds s l s' ∧ Current s' := by
  cases l
  case request l =>
    obtain ⟨c, hc, rfl⟩ := Option.map_eq_some_iff.mp h
    have hc := request_eq_some cu hc
    exact ⟨.request hc, cu.request hp.left hc⟩
  case get m =>
    have cu' := cu.get h
    obtain ⟨_, _, h⟩ := Option.bind_eq_some_iff.mp h
    obtain ⟨_, _, h⟩ := Option.bind_eq_some_iff.mp h
    cases Option.some.inj h
    exact ⟨.get, cu'⟩
  case raise i down =>
    obtain ⟨_, hg, h⟩ := Option.bind_eq_some_iff.mp h
    cases Option.some.inj h
    exact ⟨.raise ((Option.guard_eq_some' ..).mp hg).right, cu⟩

-- The cluster does not notice that other requests are handled in between, nor that a put is ended
-- by an exception, as it takes no more steps then.
theorem atomic_of_reachable {P : DynamoKV.State α → DynamoKV.Label α → Prop}
    (r : (system cfg builds).Reachable (On P) s) :
    (DynamoKV.cluster cfg α).Reachable P s.cluster ∧ Current s := by
  refine r.invariant (I := fun s => (DynamoKV.cluster cfg α).Reachable P s.cluster ∧ Current s)
    (fun s hi => ?init) fun s l s' _ hp h ⟨hr, cu⟩ => ?step
  case init => exact ⟨.initial <| hi ▸ rfl, hi ▸ nofun⟩
  case step =>
    obtain ⟨e, cu'⟩ := cu.step hp h
    refine ⟨?_, cu'⟩
    cases e
    case request hc  => exact hr.step hp.right hc
    case get | raise => exact hr

end Atomic

section Exceptions

theorem builds_of_step (h : DynamoKV.step cfg s.cluster l = some c) (hl : Builds builds l)
    (hb : ∀ op ∈ s.cluster.ops, op.request.Builds builds op.key) :
    ∀ op ∈ c.ops, op.request.Builds builds op.key := by
  intro op' hop
  obtain ⟨i, ho'⟩ := List.getElem?_of_mem hop
  rcases opStep_or_started h ho' with ⟨op, ho, e⟩ | hs
  · rw [e.request, e.key]
    exact hb op <| List.mem_of_getElem? ho
  · exact (hs.label ▸ hl : Builds builds (.invoke op'.coord op'.key op'.request))

theorem not_raises (hb : ∀ op ∈ s.cluster.ops, op.request.Builds builds op.key) :
    ¬s.Raises cfg builds i down := by
  rintro ⟨op, ho, _, _, _, _, _, _, hn⟩
  exact hn <| hb op <| List.mem_of_getElem? ho

end Exceptions

section Serial

-- No message is being handled, and no put has been ended by an exception.
structure Idle (s : State α) : Prop where
  existing : ∀ m, s.existing m = none
  raised   : s.raised = []

theorem Idle.current (i : Idle s) : Current s := by
  intro m existing he
  simp [i.existing m] at he

-- If the step ends the only handling that goes on, nothing disturbs it and nothing is left to do.
theorem run_request {P : DynamoKV.State α → DynamoKV.Label α → Prop} (hr : s.raised = [])
    (ho : ∀ m, (s.existing m).isSome → ∃ again, l = .deliver m again) (hp : P s.cluster l)
    (h : s.request cfg (fun _ _ => true) l = some c) : ∃ s',
      (system cfg fun _ _ => true).Run (On P) s s' ∧ s'.cluster = c ∧ Idle s' := by
  have hu : Undisturbed s l := by
    unfold Undisturbed
    split
    case h_2 => trivial
    case h_1 m again =>
      intro _ _ m' _ hne hm'
      obtain ⟨_, hl⟩ := ho m' hm'
      cases hl
      exact absurd rfl hne
  have hs : s.step cfg (fun _ _ => true) (.request l) = some ⟨c, s.remaining l, s.raised⟩ := by
    rw [State.step, h]
    rfl
  refine ⟨_, .single (l := .request l) ⟨hu, hp⟩ hs, rfl, fun m => ?_, hr⟩
  refine Option.eq_none_iff_forall_not_mem.mpr fun existing he => ?_
  obtain ⟨j, hj, _, hne⟩ := exists_of_remaining he
  obtain ⟨again, hl⟩ := ho j <| hj ▸ rfl
  exact hne j again hl rfl

theorem Idle.request_eq (i : Idle s) (hl : ∀ m again message, l = .deliver m again →
      s.cluster.net[m]? = some message → message.stored = none) :
    s.request cfg (fun _ _ => true) l = DynamoKV.step cfg s.cluster l := by
  cases l
  case putWrite j down =>
    have hn : ¬s.Raises cfg (fun _ _ => true) j down :=
      not_raises fun op _ => op.request.builds_true op.key
    simp [State.request, i.raised, guard, hn]
  case deliver m again =>
    refine deliver_eq i.current fun message hm => .inl ?_
    simp [hl m again message rfl hm]
  all_goals rfl

theorem Idle.run {P : DynamoKV.State α → DynamoKV.Label α → Prop} (i : Idle s) (hp : P s.cluster l)
    (h : DynamoKV.step cfg s.cluster l = some c) : ∃ s',
      (system cfg fun _ _ => true).Run (On P) s s' ∧ s'.cluster = c ∧ Idle s' := by
  by_cases hl : ∀ m again message, l = .deliver m again → s.cluster.net[m]? = some message →
      message.stored = none
  case pos =>
    refine run_request i.raised (fun m hm => ?_) hp <| (i.request_eq hl).trans h
    simp [i.existing m] at hm
  case neg =>
    simp only [not_forall] at hl
    obtain ⟨m, again, message, rfl, hm, hs⟩ := hl
    obtain ⟨x, hx⟩ := Option.ne_none_iff_exists'.mp hs
    let s₁ : State α := { s with
      existing := Function.update s.existing m <| some <| (s.cluster.node x.1).getLocal x.2.1 }
    have hg : s.get m = some s₁ := by simp [State.get, hm, hx, i.existing, guard, s₁]
    have hsome : (s₁.existing m).isSome := by simp [s₁]
    have hr : s₁.request cfg (fun _ _ => true) (.deliver m again) = some c :=
      (deliver_eq (i.current.get hg) fun _ _ => .inr hsome).trans h
    have first : (system cfg fun _ _ => true).Run (On P) s s₁ :=
      .single (l := .get m) trivial hg
    have ho : ∀ m', (s₁.existing m').isSome →
        ∃ again', DynamoKV.Label.deliver (α := α) m again = .deliver m' again' := by
      intro m' hm'
      by_cases he : m' = m
      case pos => exact ⟨again, he ▸ rfl⟩
      case neg => simp [s₁, he, i.existing] at hm'
    obtain ⟨s', run, hs'⟩ := run_request (s := s₁) i.raised ho hp hr
    exact ⟨s', first.trans run, hs'⟩

-- Every run of the cluster is one in which `put_local` is never disturbed.
theorem exists_of_reachable {P : DynamoKV.State α → DynamoKV.Label α → Prop}
    (r : (DynamoKV.cluster cfg α).Reachable P c) : ∃ s : State α,
      (system cfg fun _ _ => true).Reachable (On P) s ∧ s.cluster = c := by
  obtain ⟨c₀, rfl, r⟩ := r.exists_run
  obtain ⟨s, hr, hc, _⟩ := r.lift (R := fun c s => s.cluster = c ∧ Idle s)
    (fun c l c' s hp h ⟨hs, i⟩ => i.run (hs ▸ hp) (hs ▸ h)) (t := .initial)
    ⟨rfl, fun _ => rfl, rfl⟩
  exact ⟨s, ⟨.initial, rfl, hr⟩, hc⟩

end Serial

end DynamoKV.Threads

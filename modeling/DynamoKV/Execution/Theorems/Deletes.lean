import DynamoKV.Execution.Theorems.Replicas

-- What a step can do to the deletes.
namespace DynamoKV

-- What a step can make of a delete which has been started before.
inductive DeleteStep {α : Type} (cfg : Config) (s : State α) :
    Label α → Nat → DeleteOp α → DeleteOp α → Prop
  | idle : DeleteStep cfg s l i d d
  | deleteDone : d.call.Completes r ok →
      DeleteStep cfg s (.deleteDone i r ok) i d (d.complete r ok)
  | deleteReturn : d.Finished cfg →
      DeleteStep cfg s (.deleteReturn i) i d (d.conclude s.time <| d.response cfg)
  | deliver : s.net[m]? = some (.delete i r key) →
      DeleteStep cfg s (.deliver m again) i d (d.handle r existed)

structure DeleteStarted {α : Type} (cfg : Config) (s : State α) (l : Label α) (i : Nat)
    (d : DeleteOp α) : Prop where
  label   : l = .invokeDelete d.coord d.key
  index   : i = s.deletes.length
  time    : d.started = s.time
  call    : ∃ prefs, cfg.preferenceList d.key = some prefs ∧ d.call = .submit prefs
  outcome : d.outcome = none

variable {α : Type} {cfg : Config} {s s' : State α} {l : Label α}

namespace State

@[simp]
theorem deletes_deliverHint : (s.deliverHint cfg c h t k v).deletes = s.deletes := by
  unfold deliverHint
  split <;> rfl

@[simp]
theorem deletes_foldl_deliverHint (ts : List NodeId) :
    (ts.foldl (deliverHint · cfg c h · k v) s).deletes = s.deletes := by
  induction ts generalizing s
  case nil         => rfl
  case cons t _ hi => simp [hi]

theorem deletes_sendWrites (i : Nat) :
    (s.sendWrites cfg i op w ts).deletes = s.deletes := by
  simp only [sendWrites, send, modifyOp]
  split <;> simp

abbrev DeletesStep (cfg : Config) (s : State α) (l : Label α) :
    List (DeleteOp α) → List (DeleteOp α) → Prop :=
  Log.Steps (DeleteStep cfg s l) (DeleteStarted cfg s l)

theorem DeletesStep.of_eq (h : s'.deletes = s.deletes) : DeletesStep cfg s l s.deletes s'.deletes :=
  Log.Steps.of_eq (fun _ _ => .idle) h

theorem DeletesStep.of_modifyDelete {f : DeleteOp α → DeleteOp α}
    (h : s'.deletes = (s.modifyDelete i f).deletes) (hd : s.deletes[i]? = some d)
    (hf : DeleteStep cfg s l i d (f d)) : DeletesStep cfg s l s.deletes s'.deletes :=
  .of_modify (fun _ _ => .idle) h fun _ hd' => Option.some.inj (hd.symm.trans hd') ▸ hf

theorem deletesStep_handle {message : Message α} (hm : s.net[m]? = some message)
    (net : List (Message α)) :
    DeletesStep cfg s (.deliver m again) s.deletes ({ s with net }.handle message).deletes := by
  match message with
  | .delete _ _ none | .delete _ _ (some _) =>
    exact .of_modify (fun _ _ => .idle) rfl fun _ _ => .deliver hm
  | .put _ _ none _ | .put _ _ (some _) _ | .hint _ _ none _ | .hint _ _ (some _) _
  | .flush _ _ _ none _ | .flush _ _ _ (some _) _ | .flushed _ _ _ =>
    exact .of_eq rfl

end State

open State in
theorem step_deletes (h : step cfg s l = some s') :
    DeletesStep cfg s l s.deletes s'.deletes := by
  rw [step_eq_some] at h
  obtain ⟨s₁, h, rfl⟩ := h
  cases l <;> simp only [next] at h
  case invokeDelete c k =>
    obtain ⟨prefs, hp, rfl⟩ := invokeDelete_eq_some.mp h
    exact .append rfl ⟨rfl, rfl, rfl, ⟨prefs, hp, rfl⟩, rfl⟩
  case deleteDone i r ok =>
    obtain ⟨d, hd, hc, rfl⟩ := deleteDone_eq_some.mp h
    exact DeletesStep.of_modifyDelete rfl hd (.deleteDone hc)
  case deleteReturn i =>
    obtain ⟨d, hd, hf, rfl⟩ := deleteReturn_eq_some.mp h
    exact DeletesStep.of_modifyDelete rfl hd (.deleteReturn hf)
  case deliver =>
    obtain ⟨message, hm, rfl⟩ := deliver_eq_some.mp h
    exact deletesStep_handle hm _
  case putWrite i _ =>
    obtain ⟨_, _, _, _, _, ⟨_, _, rfl⟩ | ⟨_, _, rfl⟩⟩ := putWrite_eq_some.mp h
    · exact DeletesStep.of_eq rfl
    · exact DeletesStep.of_eq <| deletes_sendWrites i
  case writeDone =>
    obtain ⟨_, _, _, _, _, rfl | ⟨_, _, _, _, rfl⟩⟩ := writeDone_eq_some h
    · exact DeletesStep.of_eq rfl
    · exact DeletesStep.of_eq deletes_deliverHint
  case invoke       => obtain ⟨_, _, rfl⟩ := invoke_eq_some.mp h; exact DeletesStep.of_eq rfl
  case read         => obtain ⟨_, _, _, rfl⟩ := read_eq_some.mp h; exact DeletesStep.of_eq rfl
  case readDone     => obtain ⟨_, _, _, rfl⟩ := readDone_eq_some.mp h; exact DeletesStep.of_eq rfl
  case getReturn    => obtain ⟨_, _, _, rfl⟩ := getReturn_eq_some.mp h; exact DeletesStep.of_eq rfl
  case putReturn    =>
    obtain ⟨_, _, _, _, _, rfl⟩ := putReturn_eq_some.mp h
    exact DeletesStep.of_eq rfl
  case lose         => obtain ⟨_, rfl⟩ := lose_eq_some.mp h; exact DeletesStep.of_eq rfl
  case flush        => obtain ⟨_, rfl⟩ := flush_eq_some.mp h; exact DeletesStep.of_eq rfl

namespace DeleteStep

variable {d d' : DeleteOp α}

theorem key (e : DeleteStep cfg s l i d d') : d'.key = d.key := by
  cases e <;> rfl

theorem started (e : DeleteStep cfg s l i d d') : d'.started = d.started := by
  cases e <;> rfl

theorem call (e : DeleteStep cfg s l i d d') : d.call.Evolves d'.call := by
  cases e
  case deliver    => exact .handle
  case deleteDone => exact .complete
  all_goals exact .refl _

theorem outcome (e : DeleteStep cfg s l i d d') (h : d.outcome = some o) : d'.outcome = some o := by
  cases e
  case deleteReturn hf => exact absurd hf.left (by simp [h])
  all_goals exact h

theorem outcome_of (e : DeleteStep cfg s l i d d') (h : d'.outcome = some o) :
    d.outcome = some o ∨ d.outcome = none ∧ o.time = s.time := by
  cases e
  case deleteReturn hf =>
    cases h
    exact .inr ⟨by simpa using hf.left, rfl⟩
  all_goals exact .inl h

theorem handled_of (e : DeleteStep cfg s l i d d') (h : x ∈ d'.call.handled) :
    x ∈ d.call.handled ∨ ∃ key, s.delivered l = some (.delete i x.1 key) := by
  cases e
  case deleteDone => exact .inl <| by simpa [DeleteOp.complete] using h
  case deliver hm =>
    refine (QuorumCall.mem_handled_handle h).imp_right fun hx => ?_
    subst hx
    exact ⟨_, hm⟩
  all_goals exact .inl h

end DeleteStep

theorem exists_deleteStep (h : step cfg s l = some s') (hj : s.deletes[j]? = some d) :
    ∃ d', s'.deletes[j]? = some d' ∧ DeleteStep cfg s l j d d' :=
  step_deletes h |>.kept (fun _ _ => .idle) hj

theorem deleteStep_or_started (h : step cfg s l = some s') (hj : s'.deletes[j]? = some d') :
    (∃ d, s.deletes[j]? = some d ∧ DeleteStep cfg s l j d d') ∨ DeleteStarted cfg s l j d' :=
  step_deletes h |>.origin (fun _ _ => .idle) hj

theorem deleteStep_or_started_of_lt (h : step cfg s l = some s') (hij : i < j)
    (hi : s'.deletes[i]? = some a') (hj : s'.deletes[j]? = some b') :
    ∃ a, s.deletes[i]? = some a ∧ DeleteStep cfg s l i a a' ∧
      ((∃ b, s.deletes[j]? = some b ∧ DeleteStep cfg s l j b b') ∨ DeleteStarted cfg s l j b') :=
  step_deletes h |>.origin_of_lt (fun _ _ => .idle) hij hi hj

end DynamoKV

import DynamoKV.Lib.Transition

-- The background loop of a `GossipWorker`, with the threads that its calls of `start` leave behind.
namespace DynamoKV

-- Where a thread is in its loop. Between the timeout of its wait and its next gossip round it does
-- not look at the stop event again.
inductive LoopPhase
  | waiting
  | due
  | inRound
  | ended
deriving DecidableEq, Repr

-- Setting the stop event wakes the threads which wait for it.
def LoopPhase.notify : LoopPhase → LoopPhase
  | waiting => ended
  | phase   => phase

-- Threads are numbered in the order in which they were created. While `joining`, a call of `stop`
-- is waiting for the thread in the handle.
structure GossipWorker where
  stopEvent : Bool
  thread    : Option Nat
  joining   : Bool
  threads   : List LoopPhase

namespace GossipWorker

inductive Label
  | start
  | stop
  | joinReturn
  | elapse (thread : Nat)
  | beginRound (thread : Nat)
  | endRound (thread : Nat)

def Label.IsCall : Label → Prop
  | start | stop                                    => True
  | joinReturn | elapse _ | beginRound _ | endRound _ => False

def initial : GossipWorker where
  stopEvent := false
  thread    := none
  joining   := false
  threads   := []

variable (s : GossipWorker)

-- Calls follow one another, so none begins while another is waiting.
def start : Option GossipWorker := do
  guard (s.joining = false)
  return if s.thread.isSome then s else { s with
    stopEvent := false
    thread    := some s.threads.length
    threads   := s.threads ++ [.waiting] }

def stop : Option GossipWorker := do
  guard (s.joining = false)
  return { s with
    stopEvent := true
    threads   := s.threads.map LoopPhase.notify
    joining   := s.thread.isSome }

-- The join outlasts the wait between two rounds, so it only times out in the middle of a round.
def joinReturn : Option GossipWorker := do
  guard (s.joining = true)
  let t ← s.thread
  let phase ← s.threads[t]?
  guard (phase = .ended ∨ phase = .inRound)
  return { s with joining := false, thread := none }

def advance (t : Nat) (before after : LoopPhase) : Option GossipWorker := do
  guard (s.threads[t]? = some before)
  return { s with threads := s.threads.set t after }

def next : Label → Option GossipWorker
  | .start        => s.start
  | .stop         => s.stop
  | .joinReturn   => s.joinReturn
  | .elapse t     => if s.stopEvent then none else s.advance t .waiting .due
  | .beginRound t => s.advance t .due .inRound
  | .endRound t   => s.advance t .inRound (if s.stopEvent then .ended else .waiting)

def system : TransitionSystem GossipWorker Label where
  init s := s = initial
  step   := next

-- A thread can begin a further round without another call.
def CanBegin (t : Nat) : Prop :=
  ∃ s', system.Run (fun _ l => ¬l.IsCall) s s' ∧ (s'.next (.beginRound t)).isSome

-- A call of `stop` has returned, and no thread has been started since.
def Stopped : Prop :=
  s.joining = false ∧ s.thread = none

structure OneLoop : Prop where
  atMostOne : ∀ t t', s.CanBegin t → s.CanBegin t' → t = t'
  quiet     : s.Stopped → ∀ t, s.next (.beginRound t) = none

-- A thread is only started when the loops of all earlier ones have ended.
def EndedBefore (s : GossipWorker) : Label → Prop
  | .start => s.thread = none → ∀ phase ∈ s.threads, phase = .ended
  | .stop | .joinReturn | .elapse _ | .beginRound _ | .endRound _ => True

instance (l : Label) : Decidable (s.EndedBefore l) :=
  match l with
  | .start => inferInstanceAs (Decidable (_ → _))
  | .stop | .joinReturn | .elapse _ | .beginRound _ | .endRound _ => isTrue trivial

-- What a step can make of a worker.
inductive Effect (s : GossipWorker) : Label → GossipWorker → Prop
  | idle : s.thread = some t → Effect s .start s
  | start : s.joining = false → s.thread = none → Effect s .start { s with
      stopEvent := false
      thread    := some s.threads.length
      threads   := s.threads ++ [.waiting] }
  | stop : s.joining = false → Effect s .stop { s with
      stopEvent := true
      threads   := s.threads.map LoopPhase.notify
      joining   := s.thread.isSome }
  | joinReturn : s.joining = true → s.thread = some t → s.threads[t]? = some p →
      p = .ended ∨ p = .inRound → Effect s .joinReturn { s with joining := false, thread := none }
  | elapse : s.stopEvent = false → s.threads[t]? = some .waiting →
      Effect s (.elapse t) { s with threads := s.threads.set t .due }
  | beginRound : s.threads[t]? = some .due →
      Effect s (.beginRound t) { s with threads := s.threads.set t .inRound }
  | endRound : s.threads[t]? = some .inRound → Effect s (.endRound t)
      { s with threads := s.threads.set t (if s.stopEvent then .ended else .waiting) }

variable {s s' : GossipWorker} {t t' : Nat}

theorem advance_eq_some : s.advance t p p' = some s' ↔
    s.threads[t]? = some p ∧ { s with threads := s.threads.set t p' } = s' := by
  simp [advance, Option.bind_eq_some_iff, guard]

theorem effect (h : s.next l = some s') : Effect s l s' := by
  cases l <;> simp only [next] at h
  case start =>
    simp only [GossipWorker.start, Option.bind_eq_bind, Option.bind_eq_some_iff, guard] at h
    obtain ⟨_, hj, h⟩ := h
    cases ht : s.thread <;> simp [ht] at h <;> subst h
    case none   => exact .start (by simpa using hj) ht
    case some t => exact .idle ht
  case stop =>
    simp [GossipWorker.stop, Option.bind_eq_some_iff, guard] at h
    obtain ⟨hj, rfl⟩ := h
    exact .stop hj
  case joinReturn =>
    simp [GossipWorker.joinReturn, Option.bind_eq_some_iff, guard, ← or_iff_not_imp_left] at h
    obtain ⟨hj, t, ht, p, hp, he, rfl⟩ := h
    exact .joinReturn hj ht hp he
  case elapse t =>
    split at h
    case isTrue    => contradiction
    case isFalse he =>
      obtain ⟨ht, rfl⟩ := advance_eq_some.mp h
      exact .elapse (by simpa using he) ht
  case beginRound t =>
    obtain ⟨ht, rfl⟩ := advance_eq_some.mp h
    exact .beginRound ht
  case endRound t =>
    obtain ⟨ht, rfl⟩ := advance_eq_some.mp h
    exact .endRound ht

section CanBegin

-- Once the stop event is set, only a thread which is already due can begin a round.
def Spent (s : GossipWorker) (t : Nat) : Prop :=
  ∀ p, s.threads[t]? = some p → p ≠ .due ∧ (s.stopEvent = false → p = .ended)

theorem Effect.spent (e : Effect s l s') (hl : ¬l.IsCall) (h : s.Spent t) : s'.Spent t := by
  have set_spent : ∀ t' p p', s.threads[t']? = some p' →
      (t' = t → p ≠ .due ∧ (s.stopEvent = false → p = .ended)) →
      Spent { s with threads := s.threads.set t' p } t := by
    intro t' p p' ht' hs q hq
    by_cases he : t' = t
    case neg => exact h q <| by rwa [List.getElem?_set_ne he] at hq
    case pos =>
      rw [he, List.getElem?_set_self', ← he, ht'] at hq
      exact Option.some.inj hq ▸ hs he
  cases e <;> simp only [Label.IsCall, not_true_eq_false] at hl
  case joinReturn => exact h
  case elapse t' he ht' =>
    exact set_spent _ _ _ ht' fun e => absurd ((h _ (e ▸ ht')).right he) (by decide)
  case beginRound t' ht' =>
    exact set_spent _ _ _ ht' fun e => absurd rfl (h _ (e ▸ ht')).left
  case endRound t' ht' =>
    refine set_spent _ _ _ ht' fun e => ?_
    have hs := (h _ (e ▸ ht')).right
    cases he : s.stopEvent
    case true  => simp
    case false => simpa using hs he

theorem Spent.not_canBegin (h : s.Spent t) : ¬s.CanBegin t := by
  intro ⟨s', r, hb⟩
  have h' : s'.Spent t :=
    r.preserves (I := (Spent · t)) (fun _ _ _ hl e hs => (effect e).spent hl hs) h
  obtain ⟨s'', hb⟩ := Option.isSome_iff_exists.mp hb
  obtain ⟨ht, -⟩ := advance_eq_some.mp hb
  exact (h' _ ht).left rfl

theorem CanBegin.of_due (h : s.threads[t]? = some .due) : s.CanBegin t :=
  ⟨s, .refl, Option.isSome_iff_exists.mpr ⟨_, advance_eq_some.mpr ⟨h, rfl⟩⟩⟩

theorem CanBegin.of_next (hl : ¬l.IsCall) (h : s.next l = some s') (c : s'.CanBegin t) :
    s.CanBegin t := by
  obtain ⟨s'', r, hb⟩ := c
  exact ⟨s'', (TransitionSystem.Run.single hl h).trans r, hb⟩

theorem CanBegin.of_waiting (he : s.stopEvent = false) (h : s.threads[t]? = some .waiting) :
    s.CanBegin t := by
  have ha : s.next (.elapse t) = some { s with threads := s.threads.set t .due } := by
    simpa [next, he] using advance_eq_some.mpr ⟨h, rfl⟩
  refine .of_next (by simp [Label.IsCall]) ha <| .of_due ?_
  exact List.getElem?_set_self (List.getElem?_eq_some_iff.mp h).fst

theorem CanBegin.of_inRound (he : s.stopEvent = false) (h : s.threads[t]? = some .inRound) :
    s.CanBegin t := by
  have ha : s.next (.endRound t) = some { s with threads := s.threads.set t .waiting } := by
    simpa [next, he] using advance_eq_some.mpr ⟨h, rfl⟩
  refine .of_next (by simp [Label.IsCall]) ha <| .of_waiting he ?_
  exact List.getElem?_set_self (List.getElem?_eq_some_iff.mp h).fst

theorem CanBegin.of_alive (he : s.stopEvent = false) (h : s.threads[t]? = some p)
    (hp : p ≠ .ended) : s.CanBegin t := by
  cases p
  case waiting => exact .of_waiting he h
  case due     => exact .of_due h
  case inRound => exact .of_inRound he h
  case ended   => contradiction

end CanBegin

-- All threads but the one in the handle have ended, except that the last one may still be in the
-- round during which a join timed out.
structure Inv (s : GossipWorker) : Prop where
  others  : ∀ t, s.thread = some t → ∀ t' p, t' ≠ t → s.threads[t']? = some p → p = .ended
  event   : ∀ t, s.thread = some t → s.stopEvent = s.joining
  stopped : s.thread = none → s.joining = false ∧
    ∀ p ∈ s.threads, p = .ended ∨ p = .inRound ∧ s.stopEvent = true

theorem Inv.set (h : s.Inv) (ht : s.threads[t]? = some p) (hp : p ≠ .ended)
    (hn : p = .inRound → s.stopEvent = true → p' = .ended) :
    Inv { s with threads := s.threads.set t p' } where
  event   := h.event
  others u hu t' q hne hq := by
    have hut : t = u := by
      by_contra hne
      exact hp <| h.others u hu t p hne ht
    subst hut
    rw [List.getElem?_set_ne hne.symm] at hq
    exact h.others t hu t' q hne hq
  stopped hu := by
    obtain ⟨hj, hs⟩ := h.stopped hu
    refine ⟨hj, fun q hq => ?_⟩
    cases List.mem_or_eq_of_mem_set hq
    case inl hq => exact hs q hq
    case inr hq =>
      obtain ⟨hr, he⟩ := (hs p <| List.mem_of_getElem? ht).resolve_left hp
      exact .inl <| hq.trans <| hn hr he

theorem Effect.inv (e : Effect s l s') (hl : s.EndedBefore l) (h : s.Inv) : s'.Inv := by
  cases e
  case idle                 => exact h
  case elapse ht            => exact h.set ht (by decide) (by simp)
  case beginRound ht        => exact h.set ht (by decide) (by simp)
  case endRound ht          => exact h.set ht (by decide) (by simp +contextual)
  case start hj hn =>
    refine ⟨fun t e t' p hne hp => ?_, fun _ _ => hj.symm, by simp⟩
    cases Option.some.inj e
    have hlt := (List.getElem?_eq_some_iff.mp hp).fst
    rw [List.length_append, List.length_singleton] at hlt
    rw [List.getElem?_append_left (by omega)] at hp
    exact hl hn p <| List.mem_of_getElem? hp
  case stop hj =>
    refine ⟨fun t e t' p hne hp => ?_, fun t e => ?_, fun hn => ⟨?_, fun p hp => ?_⟩⟩
    · obtain ⟨q, hq, rfl⟩ := Option.map_eq_some_iff.mp <| List.getElem?_map .. ▸ hp
      exact congrArg LoopPhase.notify <| h.others t e t' q hne hq
    · exact (congrArg Option.isSome e).symm
    · exact congrArg Option.isSome hn
    · obtain ⟨q, hq, rfl⟩ := List.mem_map.mp hp
      cases (h.stopped hn).right q hq
      case inl hq => exact .inl <| congrArg LoopPhase.notify hq
      case inr hq => exact .inr ⟨congrArg LoopPhase.notify hq.left, rfl⟩
  case joinReturn t p hj ht hp he =>
    refine ⟨by simp, by simp, fun _ => ⟨rfl, fun q hq => ?_⟩⟩
    obtain ⟨t', hq⟩ := List.getElem?_of_mem hq
    by_cases hne : t' = t
    case neg => exact .inl <| h.others t ht t' q hne hq
    case pos =>
      cases Option.some.inj <| hp.symm.trans <| hne ▸ hq
      exact he.imp_right fun he => ⟨he, (h.event t ht).trans hj⟩

theorem inv_of_reachable (r : system.Reachable EndedBefore s) : s.Inv := by
  refine r.invariant (fun s hs => ?_) fun _ _ _ _ hl e h => (effect e).inv hl h
  cases hs
  exact ⟨by simp [initial], by simp [initial], by simp [initial]⟩

theorem Inv.oneLoop (h : s.Inv) : s.OneLoop where
  atMostOne t t' hb hb' := by
    -- Without a handle, no thread is due and the stop event is set as long as any thread is alive.
    have spent : ∀ t, s.CanBegin t → s.thread = some t := by
      intro t hb
      by_contra hne
      refine Spent.not_canBegin (fun p hp => ?_) hb
      cases hu : s.thread
      case some u =>
        have hp := h.others u hu t p (fun e => hne <| e ▸ hu) hp
        exact ⟨hp ▸ by decide, fun _ => hp⟩
      case none =>
        cases (h.stopped hu).right p <| List.mem_of_getElem? hp
        case inl hp => exact ⟨hp ▸ by decide, fun _ => hp⟩
        case inr hp => exact ⟨hp.left ▸ by decide, fun he => by simp [he] at hp⟩
    exact Option.some.inj <| (spent t hb).symm.trans <| spent t' hb'
  quiet hs t := by
    by_contra hb
    obtain ⟨s', hb⟩ := Option.ne_none_iff_exists'.mp hb
    obtain ⟨ht, -⟩ := advance_eq_some.mp hb
    have := (h.stopped hs.right).right _ <| List.mem_of_getElem? ht
    simp at this

-- There is one loop as long as threads are only started after all earlier loops have ended, and
-- every other start makes it two.
theorem oneLoop_iff_endedBefore (s : GossipWorker) :
    (system.Reachable EndedBefore s → s.OneLoop) ∧
    ∀ l s', system.step s l = some s' → s'.OneLoop → s.EndedBefore l := by
  constructor
  case left  => exact fun r => (inv_of_reachable r).oneLoop
  case right =>
    intro l s' e h
    cases effect e
    case idle ht => exact fun hn => by simp [hn] at ht
    case start   =>
      intro hn p hp
      by_contra hne
      obtain ⟨t, ht⟩ := List.getElem?_of_mem hp
      have hlt := (List.getElem?_eq_some_iff.mp ht).fst
      have hc := h.atMostOne t s.threads.length
        (.of_alive rfl ((List.getElem?_append_left hlt).trans ht) hne)
        (.of_waiting rfl List.getElem?_concat_length)
      omega
    all_goals trivial

theorem oneLoop_iff_endedBefore_two :
    ∃ s : GossipWorker, s.threads = [.ended, .due] ∧ s.OneLoop := by
  let labels : List Label := [.start, .stop, .joinReturn, .start, .elapse 1]
  let s := system.after EndedBefore initial labels
  have r : system.Reachable EndedBefore s := .after rfl labels
  exact ⟨s, rfl, (oneLoop_iff_endedBefore s).left r⟩

theorem not_oneLoop : (¬∀ s, system.Reachable (fun _ _ => True) s →
      ∀ t t', s.CanBegin t → s.CanBegin t' → t = t') ∧
    ¬∀ s, system.Reachable (fun _ _ => True) s →
      s.Stopped → ∀ t, s.next (.beginRound t) = none := by
  -- The first join times out during a round of the first thread.
  let labels : List Label :=
    [.start, .elapse 0, .beginRound 0, .stop, .joinReturn, .start, .endRound 0]
  constructor
  case left =>
    intro h
    let s := system.after (fun _ _ => True) initial labels
    have := h s (.after rfl labels) 0 1 (.of_waiting rfl rfl) (.of_waiting rfl rfl)
    contradiction
  case right =>
    intro h
    let labels := labels ++ [.elapse 0, .stop, .joinReturn]
    let s := system.after (fun _ _ => True) initial labels
    have := h s (.after rfl labels) ⟨rfl, rfl⟩ 0
    contradiction

end GossipWorker
end DynamoKV

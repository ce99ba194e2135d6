import DynamoKV.Lib.Transition
import Mathlib.Data.Set.Basic

-- Nodes which tell each other everything they know. The causal history of a node consists of the
-- events that have happened at it and of those that some message has told it about.
namespace History

noncomputable section
open Classical

-- The event with number 0 is the node's start, the other ones are its ticks.
abbrev Event (π : Type) :=
  π × Nat

-- A node with the time of its last step, and the times at which it has learned of events.
structure Member (π τ : Type) where
  learned : Event π → Option τ
  ticks   : Nat
  clock   : τ

inductive Message (π : Type)
  | request (sender dest : π) (events : Set (Event π))
  | reply (dest : π) (events : Set (Event π))

structure State (π τ : Type) where
  members : π → Option (Member π τ)
  net     : List (Message π)

inductive Label (π τ : Type)
  | start (p : π) (now : τ)
  | tick (p : π) (now : τ)
  | send (sender dest : π)
  | deliver (message : Nat) (now : τ) (again : Bool)
  | lose (message : Nat)

variable {π τ : Type}

namespace Member

variable (n : Member π τ)

def Knows (e : Event π) : Prop :=
  (n.learned e).isSome

def known : Set (Event π) :=
  { e | n.Knows e }

def init (p : π) (now : τ) : Member π τ where
  learned e := if e = (p, 0) then some now else none
  ticks     := 0
  clock     := now

def tick (p : π) (now : τ) : Member π τ where
  learned e := if e = (p, n.ticks + 1) then some now else n.learned e
  ticks     := n.ticks + 1
  clock     := now

-- Only events which the node has not heard of before are learned.
def merge (events : Set (Event π)) (now : τ) : Member π τ :=
  { n with
    learned := fun e => (n.learned e).or <| if e ∈ events then some now else none
    clock   := now }

-- The node knows the other one, but has not learned of any of its events lately.
def Silent [LT τ] [Add τ] (p : π) (timeout now : τ) : Prop :=
  (∃ i, n.Knows (p, i)) ∧ ∀ i t, n.learned (p, i) = some t → t + timeout < now

variable {n} {e : Event π} {events : Set (Event π)} {now : τ}

theorem knows_of_learned (h : n.learned e = some t) : n.Knows e := by
  simp [Knows, h]

theorem learned_tick_of_ne (h : e ≠ (p, n.ticks + 1)) : (n.tick p now).learned e = n.learned e :=
  if_neg h

-- Events that a node has learned of stay, and those it is told of are added.
theorem learned_merge_eq_some : (n.merge events now).learned e = some t ↔
    n.learned e = some t ∨ n.learned e = none ∧ e ∈ events ∧ t = now := by
  cases h : n.learned e <;> simp [merge, h, eq_comm]

theorem learned_merge_of_knows (h : e ∈ events → n.Knows e) :
    (n.merge events now).learned e = n.learned e := by
  by_cases he : e ∈ events
  case neg => simp [merge, he]
  case pos =>
    obtain ⟨t, ht⟩ := Option.isSome_iff_exists.mp (h he)
    simp [merge, ht]

end Member

namespace State

variable [DecidableEq π] [LinearOrder τ] (s : State π τ)

def update (p : π) (f : Member π τ → Member π τ) (now : τ) : Option (State π τ) := do
  let n ← s.members p
  guard (n.clock ≤ now)
  return { s with members := Function.update s.members p (f n) }

def send (sender dest : π) : Option (State π τ) := do
  let n ← s.members sender
  return { s with net := s.net ++ [.request sender dest n.known] }

def receive (now : τ) : Message π → Option (State π τ)
  | .reply dest events          => s.update dest (·.merge events now) now
  | .request sender dest events => do
    let s' ← s.update dest (·.merge events now) now
    let n ← s'.members dest
    return { s' with net := s'.net ++ [.reply sender n.known] }

def deliver (m : Nat) (now : τ) (again : Bool) : Option (State π τ) := do
  let message ← s.net[m]?
  let rest := if again then s.net else s.net.eraseIdx m
  { s with net := rest }.receive now message

def step : Label π τ → Option (State π τ)
  | .start p now         => do
    guard (s.members p = none)
    return { s with members := Function.update s.members p (Member.init p now) }
  | .tick p now          => s.update p (·.tick p now) now
  | .send sender dest    => s.send sender dest
  | .deliver m now again => s.deliver m now again
  | .lose m              => some { s with net := s.net.eraseIdx m }

def initial : State π τ where
  members _ := none
  net       := []

end State

def system (π τ : Type) [DecidableEq π] [LinearOrder τ] :
    TransitionSystem (State π τ) (Label π τ) where
  init s := s = .initial
  step   := State.step

end
end History

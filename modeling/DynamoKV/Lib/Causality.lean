import Mathlib.Logic.Relation
import Mathlib.SetTheory.Cardinal.NatCard
import Mathlib.Order.WellFounded
import Mathlib.Tactic

-- Clocks of events, each of which belongs to a process and has read some other events.
namespace Causality

open Relation

variable {ι π : Type*} {proc : ι → π} {clock : ι → π → Int} {reads : ι → ι → Prop}

-- An event raises its process's entry above all that it has read and takes the other entries from
-- there. Of two events of one process, one has read the other's entry.
structure Tracks (proc : ι → π) (clock : ι → π → Int) (reads : ι → ι → Prop) : Prop where
  wf     : WellFounded reads
  pos    : ∀ i, 0 < clock i (proc i)
  le     : ∀ {i j}, reads i j → clock i ≤ clock j
  lt     : ∀ {i j}, reads i j → clock i (proc j) < clock j (proc j)
  origin : ∀ {i p n}, p ≠ proc i → 0 < n → n ≤ clock i p → ∃ x, reads x i ∧ n ≤ clock x p
  serial : ∀ {i j}, proc i = proc j → i ≠ j →
    (∃ x, reads x j ∧ clock i (proc i) ≤ clock x (proc i)) ∨
    (∃ x, reads x i ∧ clock j (proc j) ≤ clock x (proc j))

namespace Tracks

variable (t : Tracks proc clock reads)
include t

theorem le_of_reflTransGen (h : ReflTransGen reads i j) : clock i ≤ clock j := by
  induction h
  case refl           => exact le_rfl
  case tail _ hr hi => exact hi.trans <| t.le hr

-- An event's own entry only spreads to those which have read it, directly or transitively.
theorem reflTransGen_of_own_le (h : clock i (proc i) ≤ clock j (proc i)) :
    ReflTransGen reads i j := by
  induction j using t.wf.induction
  case _ j hi =>
    have of_read : (∃ x, reads x j ∧ clock i (proc i) ≤ clock x (proc i)) →
        ReflTransGen reads i j :=
      fun ⟨x, hx, hle⟩ => (hi x hx hle).tail hx
    by_cases hp : proc i = proc j
    case neg => exact of_read <| t.origin hp (t.pos i) h
    case pos =>
      by_cases he : i = j
      case pos => exact he ▸ .refl
      case neg =>
        cases t.serial hp he
        case inl hr => exact of_read hr
        case inr hr =>
          -- The event `i` would be above what it has read itself.
          have ⟨x, hx, hle⟩ := hr
          have hlt := t.lt hx
          rw [hp] at h hlt
          exact absurd (hle.trans_lt hlt) h.not_gt

-- Clocks characterize causality.
theorem le_iff : clock i ≤ clock j ↔ i = j ∨ TransGen reads i j := by
  rw [eq_comm, ← reflTransGen_iff_eq_or_transGen]
  exact ⟨fun h => t.reflTransGen_of_own_le (h _), t.le_of_reflTransGen⟩

theorem not_transGen_self : ¬TransGen reads i i :=
  fun h => t.wf.transGen.irrefl.irrefl i h

theorem eq_of_le_of_le (h : clock i ≤ clock j) (h' : clock j ≤ clock i) : i = j := by
  rcases t.le_iff.mp h with h | h
  · exact h
  · rcases t.le_iff.mp h' with h' | h'
    · exact h'.symm
    · exact (t.not_transGen_self <| h.trans h').elim

end Tracks

-- Whatever is found in an event's clock is the number of the event itself, or it has been read.
structure Counts (proc : ι → π) (clock : ι → π → Int) (reads : ι → ι → Prop) : Prop where
  wf     : WellFounded reads
  source : ∀ {i p n}, 0 < n → n ≤ clock i p →
    (proc i = p ∧ clock i p = n) ∨ ∃ x, reads x i ∧ n ≤ clock x p

namespace Counts

variable (c : Counts proc clock reads)
include c

-- The events of a process which are counted have all been read, directly or transitively.
theorem exists_reflTransGen (hn : 0 < n) (h : n ≤ clock i p) :
    ∃ j, ReflTransGen reads j i ∧ proc j = p ∧ clock j p = n := by
  induction i using c.wf.induction
  case _ i hi =>
    rcases c.source hn h with ⟨hp, he⟩ | ⟨x, hx, hle⟩
    · exact ⟨i, .refl, hp, he⟩
    · have ⟨j, hj, hp, he⟩ := hi x hx hle
      exact ⟨j, hj.tail hx, hp, he⟩

theorem le_card [Finite ι] (i : ι) (p : π) : clock i p ≤ Nat.card {j // proc j = p} := by
  have counted (m : Fin (clock i p).toNat) : ∃ j : {j // proc j = p}, clock j p = m + 1 := by
    have hle : (m + 1 : Int) ≤ clock i p := by
      have := m.isLt
      omega
    have ⟨j, _, hp, he⟩ := c.exists_reflTransGen (by omega) hle
    exact ⟨⟨j, hp⟩, he⟩
  choose f hf using counted
  have inj : Function.Injective f := by
    intro m m' he
    have h := hf m
    rw [he, hf m'] at h
    exact Fin.ext (by omega)
  have := Nat.card_le_card_of_injective f inj
  rw [Nat.card_fin] at this
  omega

end Counts
end Causality

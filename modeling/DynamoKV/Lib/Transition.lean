import Mathlib.Logic.Relation
import Mathlib.Tactic

theorem Option.Rel.bind_eq {R : β → γ → Prop} {f : β → Option δ} {g : γ → Option δ}
    (h : Option.Rel R o₁ o₂) (hf : ∀ b c, R b c → f b = g c) : o₁.bind f = o₂.bind g := by
  cases h
  case none   => rfl
  case some h => exact hf _ _ h

theorem Option.Rel.bind {R : β → γ → Prop} {S : δ → ε → Prop} {f : β → Option δ} {g : γ → Option ε}
    (h : Option.Rel R o₁ o₂) (hf : ∀ b c, R b c → Option.Rel S (f b) (g c)) :
    Option.Rel S (o₁.bind f) (o₂.bind g) := by
  cases h
  case none   => exact .none
  case some h => exact hf _ _ h

theorem Option.Rel.imp {R : β → γ → Prop} {S : β → γ → Prop} (h : Option.Rel R o₁ o₂)
    (hs : ∀ b c, o₁ = Option.some b → R b c → S b c) : Option.Rel S o₁ o₂ := by
  cases h
  case none   => exact .none
  case some h => exact .some <| hs _ _ rfl h

theorem rel_guard_bind {p q : Prop} [Decidable p] [Decidable q] {S : δ → ε → Prop}
    {f : Unit → Option δ} {g : Unit → Option ε} (h : p ↔ q)
    (hf : p → Option.Rel S (f ()) (g ())) :
    Option.Rel S ((guard p : Option Unit).bind f) ((guard q : Option Unit).bind g) := by
  by_cases hp : p
  case pos => simpa [guard, hp, h.mp hp] using hf hp
  case neg => simp [guard, hp, mt h.mpr hp]

-- Labelled transition systems whose steps are given by a partial function, and their runs under a
-- restriction on the steps taken.
structure TransitionSystem (σ ℓ : Type*) where
  init : σ → Prop
  step : σ → ℓ → Option σ

namespace TransitionSystem

variable {σ ℓ : Type*}

inductive Run (sys : TransitionSystem σ ℓ) (P : σ → ℓ → Prop) : σ → σ → Prop
  | refl : Run sys P s s
  | tail : Run sys P s₁ s₂ → P s₂ l → sys.step s₂ l = some s₃ → Run sys P s₁ s₃

structure Reachable (sys : TransitionSystem σ ℓ) (P : σ → ℓ → Prop) (s : σ) : Prop where
  exists_run : ∃ s₀, sys.init s₀ ∧ sys.Run P s₀ s

variable {sys : TransitionSystem σ ℓ} {P Q : σ → ℓ → Prop} {s s₁ s₂ s₃ : σ}

namespace Run

theorem single (hp : P s₁ l) (h : sys.step s₁ l = some s₂) : sys.Run P s₁ s₂ :=
  .tail .refl hp h

theorem trans (r₁ : sys.Run P s₁ s₂) (r₂ : sys.Run P s₂ s₃) : sys.Run P s₁ s₃ := by
  induction r₂
  case refl            => exact r₁
  case tail _ hp h hi  => exact .tail hi hp h

theorem mono (r : sys.Run P s₁ s₂) (h : ∀ s l, P s l → Q s l) : sys.Run Q s₁ s₂ := by
  induction r
  case refl           => exact .refl
  case tail _ hp e hi => exact .tail hi (h _ _ hp) e

-- What every step preserves, a run preserves.
theorem preserves {I : σ → Prop} (r : sys.Run P s₁ s₂)
    (step : ∀ s l s', P s l → sys.step s l = some s' → I s → I s') (h : I s₁) : I s₂ := by
  induction r
  case refl           => exact h
  case tail _ hp e hi => exact step _ _ _ hp e hi

end Run

namespace Reachable

theorem initial (h : sys.init s) : sys.Reachable P s :=
  ⟨s, h, .refl⟩

theorem step (r : sys.Reachable P s₁) (hp : P s₁ l) (h : sys.step s₁ l = some s₂) :
    sys.Reachable P s₂ :=
  have ⟨s₀, hi, r⟩ := r.exists_run
  ⟨s₀, hi, r.tail hp h⟩

theorem run (r : sys.Reachable P s₁) (h : sys.Run P s₁ s₂) : sys.Reachable P s₂ :=
  have ⟨s₀, hi, r⟩ := r.exists_run
  ⟨s₀, hi, r.trans h⟩

theorem mono (r : sys.Reachable P s) (h : ∀ s l, P s l → Q s l) : sys.Reachable Q s :=
  have ⟨s₀, hi, r⟩ := r.exists_run
  ⟨s₀, hi, r.mono h⟩

-- An inductive invariant holds in every reachable state. Reachability itself may be used to prove
-- that it is preserved, so invariants can be stacked.
theorem invariant {I : σ → Prop} (r : sys.Reachable P s) (init : ∀ s, sys.init s → I s)
    (step : ∀ s l s', sys.Reachable P s → P s l → sys.step s l = some s' → I s → I s') : I s := by
  have ⟨s₀, hi, r⟩ := r.exists_run
  have : sys.Reachable P s ∧ I s := by
    refine r.preserves (I := fun s => sys.Reachable P s ∧ I s) ?_ ⟨.initial hi, init _ hi⟩
    exact fun s l s' hp e ⟨hr, h⟩ => ⟨hr.step hp e, step s l s' hr hp e h⟩
  exact this.right

end Reachable

section Simulation

variable {σ' ℓ' : Type*} {sys' : TransitionSystem σ' ℓ'} {P' : σ' → ℓ' → Prop} {t : σ'}

-- If each step of a system is one of its abstraction, or none, then so are its runs.
theorem Reachable.abstract {f : σ' → σ} (r : sys'.Reachable P' t)
    (init : ∀ t, sys'.init t → sys.init (f t))
    (step : ∀ t l t', P' t l → sys'.step t l = some t' →
      f t' = f t ∨ ∃ l', P (f t) l' ∧ sys.step (f t) l' = some (f t')) : sys.Reachable P (f t) := by
  refine r.invariant (I := fun t => sys.Reachable P (f t)) (fun t hi => .initial (init t hi))
    fun t l t' _ hp h hr => ?_
  rcases step t l t' hp h with he | ⟨l', hp', h'⟩
  · exact he ▸ hr
  · exact hr.step hp' h'

-- A run can be followed in another system if some run there follows each of its steps.
theorem Run.lift {R : σ → σ' → Prop} (r : sys.Run P s₁ s₂)
    (step : ∀ s l s' t, P s l → sys.step s l = some s' → R s t →
      ∃ t', sys'.Run P' t t' ∧ R s' t') (h : R s₁ t) : ∃ t', sys'.Run P' t t' ∧ R s₂ t' := by
  induction r
  case refl => exact ⟨t, .refl, h⟩
  case tail _ hp e hi =>
    obtain ⟨t₁, r₁, h₁⟩ := hi
    obtain ⟨t₂, r₂, h₂⟩ := step _ _ _ _ hp e h₁
    exact ⟨t₂, r₁.trans r₂, h₂⟩

end Simulation

-- As long as the goal is not reached some run lowers the variant, so it is reached at last.
theorem exists_run_of_variant {I G : σ → Prop} (variant : σ → Nat)
    (progress : ∀ s, I s → ¬G s → ∃ s', sys.Run P s s' ∧ I s' ∧ variant s' < variant s) (h : I s) :
    ∃ s', sys.Run P s s' ∧ I s' ∧ G s' := by
  induction hn : variant s using Nat.strong_induction_on generalizing s
  case _ n hi =>
    by_cases hg : G s
    case pos => exact ⟨s, .refl, h, hg⟩
    case neg =>
      obtain ⟨s₁, r, h₁, hlt⟩ := progress s h hg
      obtain ⟨s₂, r', h₂⟩ := hi _ (hn ▸ hlt) h₁ rfl
      exact ⟨s₂, r.trans r', h₂⟩

section Recorded

variable {β : Type*} {emits : σ → ℓ → List β} {log : List β}

-- The system together with a record of what its steps have emitted so far.
def recorded (sys : TransitionSystem σ ℓ) (emits : σ → ℓ → List β) :
    TransitionSystem (σ × List β) ℓ where
  init x   := sys.init x.1 ∧ x.2 = []
  step x l := (sys.step x.1 l).map fun s => (s, x.2 ++ emits x.1 l)

theorem recorded_step {x y : σ × List β} : (sys.recorded emits).step x l = some y ↔
    sys.step x.1 l = some y.1 ∧ y.2 = x.2 ++ emits x.1 l := by
  simp only [recorded, Option.map_eq_some_iff, Prod.ext_iff]
  exact ⟨fun ⟨_, h, hs, hl⟩ => ⟨hs ▸ h, hl.symm⟩, fun ⟨h, hl⟩ => ⟨_, h, rfl, hl.symm⟩⟩

-- An invariant of the system and its record.
theorem Reachable.recorded_invariant {I : σ → List β → Prop}
    (r : (sys.recorded emits).Reachable (fun x => P x.1) (s, log)) (init : ∀ s, sys.init s → I s [])
    (step : ∀ s l s' log, sys.Reachable P s → P s l → sys.step s l = some s' → I s log →
      I s' (log ++ emits s l)) : sys.Reachable P s ∧ I s log := by
  refine r.invariant (I := fun x => sys.Reachable P x.1 ∧ I x.1 x.2) (fun x hx => ?init)
    fun x l y _ hp h hi => ?step
  case init => exact ⟨.initial hx.left, hx.right ▸ init _ hx.left⟩
  case step =>
    obtain ⟨h, hl⟩ := recorded_step.mp h
    exact ⟨hi.left.step hp h, hl ▸ step _ _ _ _ hi.left hp h hi.right⟩

end Recorded

section Exec

variable [∀ s l, Decidable (P s l)]

-- The run along a given sequence of labels, if every step is enabled and allowed.
def exec (sys : TransitionSystem σ ℓ) (P : σ → ℓ → Prop) [∀ s l, Decidable (P s l)] (s : σ) :
    List ℓ → Option σ
  | []      => some s
  | l :: ls => if P s l then (sys.step s l).bind (exec sys P · ls) else none

theorem exec_run (h : sys.exec P s ls = some s') : sys.Run P s s' := by
  induction ls generalizing s <;> simp only [exec] at h
  case nil => exact Option.some.inj h ▸ .refl
  case cons l ls hi =>
    split at h
    case isTrue hp =>
      have ⟨s₁, e, h⟩ := Option.bind_eq_some_iff.mp h
      exact (Run.single hp e).trans (hi h)
    case isFalse => contradiction

theorem exec_append (ls ls' : List ℓ) :
    sys.exec P s (ls ++ ls') = (sys.exec P s ls).bind (sys.exec P · ls') := by
  induction ls generalizing s
  case nil           => rfl
  case cons l ls hi =>
    simp only [List.cons_append, exec]
    split
    case isFalse => rfl
    case isTrue  => cases sys.step s l <;> simp [hi]

-- Of two runs with corresponding labels, either both are possible and end in related states, or
-- neither is. They may be runs of different systems.
theorem exec_simulates (sys : TransitionSystem σ ℓ) {σ' ℓ' : Type*} (sys' : TransitionSystem σ' ℓ')
    {R : σ → σ' → Prop} {f : ε → ℓ} {g : ε → ℓ'} {s₂ : σ'}
    (step : ∀ e s₁ s₂, R s₁ s₂ → Option.Rel R (sys.step s₁ (f e)) (sys'.step s₂ (g e)))
    (h : R s₁ s₂) (es : List ε) : Option.Rel R (sys.exec (fun _ _ => True) s₁ (es.map f))
      (sys'.exec (fun _ _ => True) s₂ (es.map g)) := by
  induction es generalizing s₁ s₂
  case nil => exact .some h
  case cons e es hi =>
    simp only [List.map_cons, exec, if_true]
    exact (step e s₁ s₂ h).bind fun _ _ => hi

theorem exec_rel (sys : TransitionSystem σ ℓ) {R : σ → σ → Prop} {f g : ε → ℓ}
    (step : ∀ e s₁ s₂, R s₁ s₂ → Option.Rel R (sys.step s₁ (f e)) (sys.step s₂ (g e)))
    (h : R s₁ s₂) (es : List ε) : Option.Rel R (sys.exec (fun _ _ => True) s₁ (es.map f))
      (sys.exec (fun _ _ => True) s₂ (es.map g)) :=
  exec_simulates sys sys step h es

-- A system which follows another one, and stays where it is if a label means nothing to it.
theorem exec_filterMap (sys : TransitionSystem σ ℓ) {σ' ℓ' : Type*} (sys' : TransitionSystem σ' ℓ')
    {R : σ → σ' → Prop} {f : ℓ → Option ℓ'} {t : σ'}
    (step : ∀ l s t, R s t → Option.Rel R (sys.step s l) ((f l).elim (some t) (sys'.step t)))
    (h : R s t) (ls : List ℓ) : Option.Rel R (sys.exec (fun _ _ => True) s ls)
      (sys'.exec (fun _ _ => True) t (ls.filterMap f)) := by
  induction ls generalizing s t
  case nil => exact .some h
  case cons l ls hi =>
    have hs := step l s t h
    cases hl : f l <;> rw [hl] at hs
    case none =>
      rw [List.filterMap_cons_none hl]
      simp only [exec, if_true]
      generalize sys.step s l = o at hs
      cases hs
      case some hr => exact hi hr
    case some l' =>
      rw [List.filterMap_cons_some hl]
      simp only [exec, if_true]
      exact hs.bind fun _ _ => hi

theorem run_of_exec {sys : TransitionSystem σ ℓ} (h : sys.exec (fun _ _ => True) s ls = some s')
    (hp : ∀ l ∈ ls, ∀ s, Q s l) : sys.Run Q s s' := by
  induction ls generalizing s <;> simp only [exec, if_true] at h
  case nil => exact Option.some.inj h ▸ .refl
  case cons l ls hi =>
    have ⟨s₁, e, h⟩ := Option.bind_eq_some_iff.mp h
    exact (Run.single (hp l (.head _) s) e).trans <| hi h fun l hl => hp l <| .tail _ hl

-- A record which own steps bring closer to its end, and other steps no further from it, bounds how
-- often they are taken until it has ended.
theorem exec_countP_le (record : σ → Option β) {ended : β → Prop} (own : ℓ → Bool) (μ : β → Nat)
    (step : ∀ s l s' b, record s = some b → sys.step s l = some s' → ∃ b', record s' = some b' ∧
      (ended b → ended b') ∧ μ b' ≤ μ b ∧ (own l → ¬ended b' → μ b' < μ b))
    (hb : record s = some b) (h : sys.exec (fun _ _ => True) s ls = some s') :
    ∃ b', record s' = some b' ∧ (ended b → ended b') ∧
      (¬ended b' → ls.countP own + μ b' ≤ μ b) := by
  induction ls generalizing s b <;> simp only [exec, if_true] at h
  case nil => exact ⟨b, Option.some.inj h ▸ hb, id, fun _ => by simp⟩
  case cons l ls hi =>
    have ⟨s₁, e, h⟩ := Option.bind_eq_some_iff.mp h
    have ⟨b₁, hb₁, he, hle, hlt⟩ := step _ _ _ _ hb e
    have ⟨b', hb', he', hle'⟩ := hi hb₁ h
    refine ⟨b', hb', he' ∘ he, fun hn => ?_⟩
    have hle' := hle' hn
    rw [List.countP_cons]
    split
    case isFalse   => omega
    case isTrue hl =>
      have := hlt hl fun he => hn <| he' he
      omega

-- The state after the run, or the first one if there is no such run.
def after (sys : TransitionSystem σ ℓ) (P : σ → ℓ → Prop) [∀ s l, Decidable (P s l)] (s : σ)
    (ls : List ℓ) : σ :=
  (sys.exec P s ls).getD s

theorem Reachable.after (hi : sys.init s) (ls : List ℓ) : sys.Reachable P (sys.after P s ls) := by
  unfold TransitionSystem.after
  cases h : sys.exec P s ls
  case none   => exact .initial hi
  case some _ => exact ⟨s, hi, exec_run h⟩

end Exec
end TransitionSystem

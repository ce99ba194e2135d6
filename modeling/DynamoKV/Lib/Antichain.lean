import Mathlib.Order.Comparable
import Mathlib.Order.Antisymmetrization
import Mathlib.Data.List.Basic
import Mathlib.Tactic

-- Maximal antichains of finite sequences over a preorder, built by inserting one element at a time.
-- Elements are identified up to `AntisymmRel (· ≤ ·)`, of which the first representative is kept.
namespace Antichain

variable {α : Type*} [Preorder α]

section Insert

variable [DecidableLE α]

def insertMax (xs : List α) (x : α) : List α :=
  if ∃ y ∈ xs, x ≤ y then xs else xs.filter (¬ · ≤ x) ++ [x]

def insertAll (ys xs : List α) : List α :=
  xs.foldl insertMax ys

@[simp]
theorem insertAll_nil (ys : List α) : insertAll ys [] = ys :=
  rfl

@[simp]
theorem insertAll_cons (ys : List α) (x : α) (xs : List α) :
    insertAll ys (x :: xs) = insertAll (insertMax ys x) xs :=
  rfl

theorem insertAll_append (ys xs xs' : List α) :
    insertAll ys (xs ++ xs') = insertAll (insertAll ys xs) xs' :=
  List.foldl_append

theorem mem_insertMax {xs : List α} (h : y ∈ insertMax xs x) : y ∈ xs ∨ y = x := by
  unfold insertMax at h
  split at h
  · exact .inl h
  · simp only [List.mem_append, List.mem_filter, List.mem_singleton] at h
    exact h.imp_left And.left

end Insert

-- An element above all others replaces them.
theorem insertMax_eq_singleton [DecidableLE α] {xs : List α} (h : ∀ y ∈ xs, y < x) :
    insertMax xs x = [x] := by
  have hn : ¬∃ y ∈ xs, x ≤ y := fun ⟨y, hy, hle⟩ => (h y hy).not_ge hle
  rw [insertMax, if_neg hn, List.filter_eq_nil_iff.mpr, List.nil_append]
  simpa using fun y hy => (h y hy).le

-- Some element of `xs` is at or above `x`.
def Covers (xs : List α) (x : α) : Prop :=
  ∃ y ∈ xs, x ≤ y

theorem Covers.mono {xs : List α} (h : Covers xs y) (hxy : x ≤ y) : Covers xs x :=
  have ⟨z, hz, hyz⟩ := h
  ⟨z, hz, hxy.trans hyz⟩

theorem Covers.subset {xs ys : List α} (h : Covers xs x) (hs : xs ⊆ ys) : Covers ys x :=
  have ⟨y, hy, hxy⟩ := h
  ⟨y, hs hy, hxy⟩

theorem Covers.of_mem {xs : List α} (h : x ∈ xs) : Covers xs x :=
  ⟨x, h, le_rfl⟩

section Insert

variable [DecidableLE α]

theorem Covers.insertMax_self (xs : List α) (x : α) : Covers (insertMax xs x) x := by
  unfold insertMax
  split
  case isTrue h  => exact h
  case isFalse h => exact .of_mem (by simp)

theorem Covers.insertMax {xs : List α} (h : Covers xs z) (x : α) : Covers (insertMax xs x) z := by
  have ⟨y, hy, hzy⟩ := h
  unfold Antichain.insertMax
  split
  · exact h
  · by_cases hyx : y ≤ x
    case pos => exact ⟨x, by simp, hzy.trans hyx⟩
    case neg => exact ⟨y, by simp [hy, hyx], hzy⟩

theorem Covers.insertAll {ys : List α} (h : Covers ys z) (xs : List α) :
    Covers (insertAll ys xs) z := by
  induction xs generalizing ys
  case nil          => exact h
  case cons x xs hi => exact hi (h.insertMax x)

theorem insertAll_covers (ys : List α) {xs : List α} (h : x ∈ xs) :
    Covers (insertAll ys xs) x := by
  induction xs generalizing ys
  case nil => simp at h
  case cons x' xs hi =>
    cases List.mem_cons.mp h
    case inl h => exact h ▸ (Covers.insertMax_self ys x').insertAll xs
    case inr h => exact hi _ h

theorem mem_insertAll {ys xs : List α} (h : y ∈ insertAll ys xs) : y ∈ ys ∨ y ∈ xs := by
  induction xs generalizing ys
  case nil => exact .inl h
  case cons x xs hi =>
    rcases hi h with h | h
    · exact (mem_insertMax h).imp_right (by simp [·])
    · exact .inr (List.mem_cons_of_mem _ h)

end Insert

abbrev Pairwise (xs : List α) : Prop :=
  xs.Pairwise (IncompRel (· ≤ ·))

-- Two comparable elements of an antichain are the same one.
theorem Pairwise.eq_of_le {xs : List α} (h : Pairwise xs) (hx : x ∈ xs) (hy : y ∈ xs)
    (hle : x ≤ y) : x = y := by
  by_contra hne
  have : Std.Symm (IncompRel (α := α) (· ≤ ·)) := ⟨fun _ _ => IncompRel.symm⟩
  exact (List.Pairwise.forall h hx hy hne).1 hle

theorem Pairwise.eq_singleton {xs : List α} (h : Pairwise xs) (hx : x ∈ xs)
    (hle : ∀ y ∈ xs, y ≤ x) : xs = [x] := by
  have heq : ∀ y ∈ xs, y = x := fun y hy => h.eq_of_le hy hx (hle y hy)
  match xs with
  | []           => contradiction
  | [y]          => rw [heq y (by simp)]
  | y :: z :: xs =>
    have hyz := (List.pairwise_cons.mp h).1 z (by simp)
    rw [heq y (by simp), heq z (by simp)] at hyz
    exact (hyz.1 le_rfl).elim

theorem Pairwise.insertMax [DecidableLE α] {xs : List α} (h : Pairwise xs) (x : α) :
    Pairwise (insertMax xs x) := by
  unfold Antichain.insertMax
  split
  case isTrue     => exact h
  case isFalse hn =>
    refine List.pairwise_append.mpr ⟨h.filter _, List.pairwise_singleton .., fun y hy z hz => ?_⟩
    cases List.mem_singleton.mp hz
    simp only [List.mem_filter, decide_not, Bool.not_eq_true', decide_eq_false_iff_not] at hy
    exact ⟨hy.2, fun hzy => hn ⟨y, hy.1, hzy⟩⟩

-- `ys` holds exactly the maximal elements of `xs`, each class once and by its first representative.
structure IsMaximal (xs ys : List α) : Prop where
  pairwise : Pairwise ys
  covers   : ∀ x ∈ xs, Covers ys x
  first    : ∀ y ∈ ys, ∃ pre post, xs = pre ++ y :: post ∧ ∀ z ∈ pre, ¬AntisymmRel (· ≤ ·) z y

def SameClasses (xs ys : List α) : Prop :=
  (∀ x ∈ xs, ∃ y ∈ ys, AntisymmRel (· ≤ ·) x y) ∧ (∀ y ∈ ys, ∃ x ∈ xs, AntisymmRel (· ≤ ·) y x)

namespace IsMaximal

variable {xs xs' ys ys' : List α}

theorem nil : IsMaximal (α := α) [] [] where
  pairwise := .nil
  covers   := by simp
  first    := by simp

theorem subset (m : IsMaximal xs ys) : ys ⊆ xs := by
  intro y hy
  have ⟨_, _, h, _⟩ := m.first y hy
  simp [h]

theorem maximal (m : IsMaximal xs ys) (hy : y ∈ ys) (hx : x ∈ xs) (h : y ≤ x) : x ≤ y := by
  have ⟨z, hz, hxz⟩ := m.covers x hx
  have := m.pairwise.eq_of_le hy hz (h.trans hxz)
  exact this ▸ hxz

theorem maximal_iff (m : IsMaximal xs ys) (hx : x ∈ xs) :
    (∀ z ∈ xs, x ≤ z → z ≤ x) ↔ ∃ y ∈ ys, AntisymmRel (· ≤ ·) x y := by
  constructor
  case mp =>
    intro h
    have ⟨y, hy, hxy⟩ := m.covers x hx
    exact ⟨y, hy, hxy, h y (m.subset hy) hxy⟩
  case mpr =>
    intro ⟨y, hy, hxy, hyx⟩ z hz hxz
    exact (m.maximal hy hz (hyx.trans hxz)).trans hyx

theorem exists_equiv (m : IsMaximal xs ys) (m' : IsMaximal xs' ys')
    (h : ∀ x ∈ xs, Covers xs' x) (h' : ∀ x ∈ xs', Covers xs x) (hy : y ∈ ys) :
    ∃ y' ∈ ys', AntisymmRel (· ≤ ·) y y' := by
  have ⟨x', hx', hyx'⟩ := h y (m.subset hy)
  have ⟨y', hy', hxy'⟩ := m'.covers x' hx'
  have ⟨x, hx, hyx⟩ := h' y' (m'.subset hy')
  have hyy := hyx'.trans hxy'
  exact ⟨y', hy', hyy, hyx.trans <| m.maximal hy hx (hyy.trans hyx)⟩

-- Sequences which cover each other have the same maximal elements.
theorem sameClasses (m : IsMaximal xs ys) (m' : IsMaximal xs' ys')
    (h : ∀ x ∈ xs, Covers xs' x) (h' : ∀ x ∈ xs', Covers xs x) : SameClasses ys ys' :=
  ⟨fun _ => m.exists_equiv m' h h', fun _ => m'.exists_equiv m h' h⟩

variable [DecidableLE α]

-- Appending one element to the sequence is inserting it into its maximal elements.
theorem insertMax (m : IsMaximal xs ys) (x : α) :
    IsMaximal (xs ++ [x]) (Antichain.insertMax ys x) where
  pairwise := m.pairwise.insertMax x
  covers := by
    intro z hz
    cases List.mem_append.mp hz
    case inl h => exact (m.covers z h).insertMax x
    case inr h => exact List.mem_singleton.mp h ▸ Covers.insertMax_self ys x
  first := by
    intro y hy
    by_cases hm : y ∈ ys
    case pos =>
      have ⟨pre, post, h, hp⟩ := m.first y hm
      exact ⟨pre, post ++ [x], by simp [h], hp⟩
    case neg =>
      -- The only new element is `x`, and no earlier one is at or above it.
      obtain rfl := (mem_insertMax hy).resolve_left hm
      refine ⟨xs, [], rfl, fun z hz hzy => ?_⟩
      have ⟨w, hw, hzw⟩ := m.covers z hz
      have hyw : ∃ w ∈ ys, y ≤ w := ⟨w, hw, hzy.2.trans hzw⟩
      rw [Antichain.insertMax, if_pos hyw] at hy
      exact hm hy

theorem insertAll (m : IsMaximal xs ys) (xs' : List α) :
    IsMaximal (xs ++ xs') (Antichain.insertAll ys xs') := by
  induction xs' generalizing xs ys
  case nil         => simpa using m
  case cons x _ hi => simpa using hi (m.insertMax x)

theorem of_insertAll (xs : List α) : IsMaximal xs (Antichain.insertAll [] xs) := by
  simpa using IsMaximal.nil.insertAll xs

end IsMaximal

theorem flatten_subset {xss yss : List (List α)} (h : List.Forall₂ IsMaximal xss yss) :
    yss.flatten ⊆ xss.flatten := by
  induction h
  case nil => simp
  case cons m _ hi =>
    refine List.append_subset.mpr ⟨?left, ?right⟩
    case left  => exact List.Subset.trans m.subset <| List.subset_append_left ..
    case right => exact List.Subset.trans hi <| List.subset_append_right ..

theorem flatten_covers {xss yss : List (List α)} (h : List.Forall₂ IsMaximal xss yss) :
    ∀ x ∈ xss.flatten, Covers yss.flatten x := by
  induction h
  case nil => simp
  case cons m _ hi =>
    intro x hx
    rcases List.mem_append.mp hx with hx | hx
    · exact (m.covers x hx).subset (List.subset_append_left ..)
    · exact (hi x hx).subset (List.subset_append_right ..)

-- Inserting the maximal elements of several sequences gives the maximal elements of all of them.
theorem insertAll_flatten_sameClasses [DecidableLE α] {xss yss : List (List α)} {zs : List α}
    (h : List.Forall₂ IsMaximal xss yss) (hz : ∀ z, z ∈ zs ↔ z ∈ xss.flatten) :
    SameClasses (insertAll [] yss.flatten) (insertAll [] zs) := by
  apply (IsMaximal.of_insertAll _).sameClasses (.of_insertAll _)
  case h  => exact fun y hy => .of_mem <| (hz y).mpr (flatten_subset h hy)
  case h' => exact fun z hzm => flatten_covers h z <| (hz z).mp hzm

section Frontier

variable {S : Set α} {ys ys' : List α}

-- `ys` holds the maximal elements of a set, each class once.
structure IsFrontier (S : Set α) (ys : List α) : Prop where
  pairwise : Pairwise ys
  covers   : ∀ x ∈ S, Covers ys x
  subset   : ∀ y ∈ ys, y ∈ S

namespace IsFrontier

theorem exists_equiv (f : IsFrontier S ys) (f' : IsFrontier S ys') (hy : y ∈ ys) :
    ∃ y' ∈ ys', AntisymmRel (· ≤ ·) y y' := by
  have ⟨y', hy', hle⟩ := f'.covers y <| f.subset y hy
  have ⟨z, hz, hle'⟩ := f.covers y' <| f'.subset y' hy'
  cases f.pairwise.eq_of_le hy hz (hle.trans hle')
  exact ⟨y', hy', hle, hle'⟩

theorem sameClasses (f : IsFrontier S ys) (f' : IsFrontier S ys') : SameClasses ys ys' :=
  ⟨fun _ => f.exists_equiv f', fun _ => f'.exists_equiv f⟩

-- Inserting any number of frontiers gives the frontier again.
theorem insertAll [DecidableLE α] {yss : List (List α)} (h : ∀ ys ∈ yss, IsFrontier S ys)
    (hn : yss ≠ []) : IsFrontier S (Antichain.insertAll [] yss.flatten) where
  pairwise := (IsMaximal.of_insertAll _).pairwise
  covers x hx := by
    have ⟨ys, hys⟩ := List.exists_mem_of_ne_nil yss hn
    have ⟨y, hy, hle⟩ := (h ys hys).covers x hx
    exact (insertAll_covers [] <| List.mem_flatten_of_mem hys hy).mono hle
  subset y hy := by
    have ⟨ys, hys, hy⟩ := List.mem_flatten.mp <| (mem_insertAll hy).resolve_left List.not_mem_nil
    exact (h ys hys).subset y hy

end IsFrontier
end Frontier
end Antichain

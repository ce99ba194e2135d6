import Mathlib.Data.List.Rotate
import Mathlib.Data.List.Sort
import Mathlib.Tactic

-- Walks around a circle of points, which are given as a sorted list, and the distinct things met on
-- the way.
namespace Circle

section Walk

variable {ι : Type*} [LinearOrder ι] {points : List ι} {h : ι}

-- The points in the order in which a walk that starts at `h` meets them.
def walkFrom (points : List ι) (h : ι) : List ι :=
  points.filter (h ≤ ·) ++ points.filter (· < h)

theorem filter_walkFrom (points : List ι) (h : ι) (p : ι → Bool) :
    (walkFrom points h).filter p = walkFrom (points.filter p) h := by
  simp only [walkFrom, List.filter_append, List.filter_filter, Bool.and_comm]

theorem mem_walkFrom : x ∈ walkFrom points h ↔ x ∈ points := by
  simp only [walkFrom, List.mem_append, List.mem_filter, decide_eq_true_eq, ← and_or_left]
  exact and_iff_left <| le_or_gt h x

@[simp]
theorem walkFrom_eq_nil : walkFrom points h = [] ↔ points = [] := by
  simp only [List.eq_nil_iff_forall_not_mem, mem_walkFrom]

-- The partition point of a sorted list, which is what a binary search for `h` finds.
theorem take_drop_takeWhile (hs : points.SortedLT) :
    points.take (points.takeWhile (· < h)).length = points.filter (· < h) ∧
    points.drop (points.takeWhile (· < h)).length = points.filter (h ≤ ·) := by
  have hp := hs.pairwise
  induction points
  case nil => simp
  case cons p ps hi =>
    have ⟨hlt, hp'⟩ := List.pairwise_cons.mp hp
    have ⟨ht, hd⟩ := hi hp'.sortedLT hp'
    by_cases hh : p < h
    case pos => simp [hh, ht, hd]
    case neg =>
      have hge : ∀ q ∈ ps, h ≤ q := fun q hq => (le_of_not_gt hh).trans (hlt q hq).le
      have hlt : ∀ q ∈ ps, ¬q < h := fun q hq => (hge q hq).not_gt
      have hf : ps.filter (h ≤ ·) = ps := List.filter_eq_self.mpr (by simpa using hge)
      simpa [hh, le_of_not_gt hh, List.filter_eq_nil_iff, hf] using hge

theorem rotate_takeWhile (hs : points.SortedLT) :
    points.rotate (points.takeWhile (· < h)).length = walkFrom points h := by
  have ⟨ht, hd⟩ := take_drop_takeWhile (h := h) hs
  rw [List.rotate_eq_drop_append_take (List.takeWhile_sublist _).length_le, ht, hd, walkFrom]

-- Removing a point at its partition point.
theorem eraseIdx_takeWhile (hs : points.SortedLT) (hm : h ∈ points) :
    (points.takeWhile (· < h)).length < points.length ∧
    points.eraseIdx (points.takeWhile (· < h)).length = points.erase h := by
  have hp := hs.pairwise
  induction points
  case nil => simp at hm
  case cons p ps hi =>
    have ⟨hlt, hp'⟩ := List.pairwise_cons.mp hp
    by_cases hh : p < h
    case pos =>
      have ⟨hl, he⟩ := hi hp'.sortedLT (by simpa [hh.ne'] using hm) hp'
      have hne : ¬p == h := by simpa using hh.ne
      simp [hh, hl, he, List.erase_cons_tail hne]
    case neg =>
      have he : p = h := by
        refine (List.mem_cons.mp hm).elim Eq.symm fun hm => ?_
        exact absurd (hlt h hm) hh
      simp [he]

omit [LinearOrder ι] in
-- Running an index around the circle is the walk.
theorem map_range_getElem? (points : List ι) (n : Nat) :
    (List.range points.length).map (fun i => points[(n + i) % points.length]?) =
      (points.rotate n).map some := by
  refine List.ext_getElem (by simp) fun i hi _ => ?_
  have hl : 0 < points.length := by
    simp at hi
    omega
  rw [List.getElem_map, List.getElem_map, List.getElem_range, List.getElem_rotate, Nat.add_comm n i,
    List.getElem?_eq_getElem (Nat.mod_lt _ hl)]

end Walk

section Distinct

variable {α : Type*} [DecidableEq α] {l result : List α} {x : α}

theorem nodup_eraseDups (l : List α) : l.eraseDups.Nodup := by
  match l with
  | []     => simp
  | a :: l =>
    rw [List.eraseDups_cons]
    refine List.nodup_cons.mpr ⟨?_, nodup_eraseDups _⟩
    simp [List.mem_eraseDups]
termination_by l.length
decreasing_by exact Nat.lt_succ_of_le <| List.length_filter_le ..

theorem eraseDups_filter (l : List α) (p : α → Bool) :
    (l.filter p).eraseDups = l.eraseDups.filter p := by
  match l with
  | []     => simp
  | a :: l =>
    have hi := eraseDups_filter (l.filter fun b => !b == a) p
    rw [List.eraseDups_cons, List.filter_cons, List.filter_cons, ← hi, List.filter_filter]
    split
    case isTrue => simp only [List.eraseDups_cons, List.filter_filter, Bool.and_comm]
    case isFalse h =>
      congr 1
      refine List.filter_congr fun b _ => ?_
      by_cases hb : b = a <;> simp_all
termination_by l.length
decreasing_by exact Nat.lt_succ_of_le <| List.length_filter_le ..

-- The loop which collects distinct elements until there are `target` of them.
def collect (target : Nat) (result : List α) : List α → List α
  | []     => result
  | x :: l =>
    if x ∈ result then collect target result l
    else if (result ++ [x]).length = target then result ++ [x]
    else collect target (result ++ [x]) l

theorem collect_eq (result l : List α) (h : result.length < target) :
    collect target result l =
      result ++ ((l.filter (· ∉ result)).eraseDups.take (target - result.length)) := by
  induction l generalizing result
  case nil => simp [collect]
  case cons x l hi =>
    simp only [collect]
    split_ifs with hx ht
    case pos => simp [hi _ h, hx]
    all_goals
      have hs : target - result.length = (target - (result ++ [x]).length) + 1 := by
        simp
        omega
      rw [List.filter_cons_of_pos (by simp [hx]), List.eraseDups_cons, hs, List.take_succ_cons]
    case pos => simp [ht]
    case neg =>
      have hl : (result ++ [x]).length < target := by
        simp at ht ⊢
        omega
      rw [hi _ hl, List.filter_filter, List.append_assoc, List.singleton_append]
      congr 4
      refine List.filter_congr fun y _ => ?_
      by_cases hy : y = x <;> simp [hy]

theorem collect_nil (h : 0 < target) : collect target [] l = l.eraseDups.take target := by
  simpa using collect_eq [] l h

-- A target of zero is never met.
theorem collect_zero (h : result.length + l.length < target) :
    collect 0 result l = collect target result l := by
  induction l generalizing result
  case nil => rfl
  case cons x l hi =>
    have hx : (result ++ [x]).length = result.length + 1 := by simp
    rw [List.length_cons] at h
    simp only [collect]
    rw [hi (by omega), hi (by omega), if_neg (by simp : ¬(result ++ [x]).length = 0),
      if_neg (by omega : ¬(result ++ [x]).length = target)]

theorem exists_collect_eq_take (target : Nat) (l : List α) :
    ∃ n, collect target [] l = l.eraseDups.take n := by
  cases target
  case zero   => exact ⟨_, (collect_zero (by simp)).trans <| collect_nil l.length.succ_pos⟩
  case succ n => exact ⟨_, collect_nil n.succ_pos⟩

-- The list for a larger target has at most one more element than the one that was found.
theorem collect_succ (h : l.eraseDups.length ≤ n) (target : Nat) :
    collect (min ((collect target [] l).length + 1) n) [] l =
      collect target [] l ++ l.eraseDups[(collect target [] l).length]?.toList := by
  obtain ⟨m, hm⟩ := exists_collect_eq_take target l
  rw [hm, List.length_take, List.take_eq_take_min, ← List.take_add_one]
  cases n
  case zero =>
    have hl : l.eraseDups = [] := List.length_eq_zero_iff.mp <| Nat.le_zero.mp h
    have hl : l = [] := by simpa [List.eq_nil_iff_forall_not_mem] using hl
    subst hl
    simp [collect]
  case succ n =>
    rw [collect_nil (by omega), List.take_eq_take_min,
      List.take_eq_take_min (i := min m l.eraseDups.length + 1)]
    congr 1
    omega

theorem collect_prefix (target : Nat) (l : List α) : collect target [] l <+: l.eraseDups := by
  obtain ⟨n, hn⟩ := exists_collect_eq_take target l
  exact hn ▸ List.take_prefix n _

omit [DecidableEq α] in
-- The first element after a part of a list is new, and it is there if there are new elements at
-- all.
theorem next_of_prefix (hd : l.Nodup) (hp : found <+: l) :
    (∀ x ∈ l[found.length]?, x ∉ found) ∧ (l[found.length]?.isSome ↔ ∃ x ∈ l, x ∉ found) := by
  obtain ⟨rest, rfl⟩ := hp
  rw [List.getElem?_append_right le_rfl, Nat.sub_self]
  cases rest
  case nil => simp
  case cons x rest =>
    have hx : x ∉ found := fun hx => List.disjoint_of_nodup_append hd hx List.mem_cons_self
    exact ⟨by simpa using hx, by simpa using ⟨x, .inr <| .inl rfl, hx⟩⟩

section Insertion

variable {n : Nat}

-- Leaving out an element of the first `n + 1` leaves the first `n` others.
theorem take_filter_ne (h : l.Nodup) (x : α) (n : Nat) :
    (l.filter (· ≠ x)).take n = ((l.take (n + 1)).filter (· ≠ x)).take n := by
  induction l generalizing n
  case nil => simp
  case cons a l hi =>
    have ⟨ha, h⟩ := List.nodup_cons.mp h
    by_cases hx : a = x
    case pos =>
      have hn : ∀ b ∈ l, b ≠ x := fun b hb e => ha <| hx ▸ e ▸ hb
      have hf : (l.take n).filter (· ≠ x) = l.take n := by
        refine List.filter_eq_self.mpr fun b hb => ?_
        simpa using hn b <| List.mem_of_mem_take hb
      have hf' : l.filter (· ≠ x) = l := List.filter_eq_self.mpr (by simpa using hn)
      rw [hx, List.take_succ_cons, List.filter_cons_of_neg (by simp),
        List.filter_cons_of_neg (by simp), hf, hf', List.take_take, min_self]
    case neg =>
      cases n
      case zero   => simp
      case succ n => simpa [hx] using hi h n

omit [DecidableEq α] in
theorem filter_take_prefix (l : List α) (p : α → Bool) (n : Nat) :
    (l.take n).filter p <+: (l.filter p).take n := by
  have hp : (l.take n).filter p <+: l.filter p := (List.take_prefix n l).filter p
  have hl : ((l.take n).filter p).length ≤ n :=
    (List.length_filter_le ..).trans (List.length_take_le ..)
  exact List.prefix_take_iff.mpr ⟨hp, hl⟩

-- A list into which an element was put at one place, and which had to stay within a length.
structure Inserted (n : Nat) (x : α) (l l' : List α) : Prop where
  split : ∃ before after, l = before ++ after ∧
    (l.length < n ∧ l' = before ++ x :: after ∨
     l.length = n ∧ ∃ init last, after = init ++ [last] ∧ l' = before ++ x :: init)

theorem take_eq_or_inserted (h : l.Nodup) (x : α) (n : Nat) :
    l.take n = (l.filter (· ≠ x)).take n ∨ Inserted n x ((l.filter (· ≠ x)).take n) (l.take n) := by
  by_cases hx : x ∈ l
  case neg =>
    have hf : l.filter (· ≠ x) = l := by
      refine List.filter_eq_self.mpr fun b hb => ?_
      simpa using ne_of_mem_of_not_mem hb hx
    rw [hf]
    exact .inl rfl
  case pos =>
    have ⟨before, after, he⟩ := List.append_of_mem hx
    have hb : ∀ b ∈ before ++ after, b ≠ x := by
      subst he
      have h := List.nodup_middle.mp h
      exact fun b hb e => (List.nodup_cons.mp h).left <| e ▸ hb
    have hf : l.filter (· ≠ x) = before ++ after := by
      subst he
      rw [List.filter_append, List.filter_cons_of_neg (by simp), ← List.filter_append]
      exact List.filter_eq_self.mpr (by simpa using hb)
    rw [hf, he]
    by_cases hn : n ≤ before.length
    case pos =>
      left
      rw [List.take_append_of_le_length hn, List.take_append_of_le_length hn]
    case neg =>
      right
      have ⟨m, hm⟩ := Nat.exists_eq_add_of_lt <| not_le.mp hn
      subst hm
      refine ⟨before, after.take (m + 1), by simp [List.take_append, add_assoc], ?_⟩
      by_cases ha : after.length ≤ m
      case pos =>
        left
        simp [List.take_append, add_assoc, List.take_of_length_le, ha]
        omega
      case neg =>
        right
        refine ⟨by simp; omega, after.take m, after[m], List.take_succ_eq_append_getElem _, ?_⟩
        simp [List.take_append, add_assoc]

end Insertion
end Distinct
end Circle

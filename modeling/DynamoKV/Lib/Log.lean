import Mathlib.Data.List.Basic
import Mathlib.Tactic

-- Logs of records, which are only ever updated in place or extended at the end.
namespace Log

-- Records are updated as in `R`, or one new record is appended as in `S`.
inductive Steps {β : Type*} (R : Nat → β → β → Prop) (S : Nat → β → Prop) (l l' : List β) : Prop
  | update : (∀ j, Option.Rel (R j) l[j]? l'[j]?) → Steps R S l l'
  | append : l' = l ++ [b] → S l.length b → Steps R S l l'

namespace Steps

variable {β : Type*} {R : Nat → β → β → Prop} {S : Nat → β → Prop} {l l' : List β}

theorem of_eq (refl : ∀ j b, R j b b) (h : l' = l) : Steps R S l l' := by
  refine .update fun j => ?_
  rw [h]
  cases l[j]?
  case none   => exact .none
  case some b => exact .some <| refl j b

theorem of_modify (refl : ∀ j b, R j b b) {f : β → β} (h : l' = l.modify i f)
    (hf : ∀ b, l[i]? = some b → R i b (f b)) : Steps R S l l' := by
  refine .update fun j => ?_
  rw [h, List.getElem?_modify]
  cases hj : l[j]?
  case none   => exact .none
  case some b =>
    refine .some ?_
    split
    case isFalse    => exact refl j b
    case isTrue hij => exact hij ▸ hf b (hij ▸ hj)

-- Records are never dropped.
theorem kept (refl : ∀ j b, R j b b) (h : Steps R S l l') (hj : l[j]? = some b) :
    ∃ b', l'[j]? = some b' ∧ R j b b' := by
  cases h
  case update h =>
    have h := h j
    rw [hj] at h
    generalize l'[j]? = x at h
    cases h
    case some b' hr => exact ⟨b', rfl, hr⟩
  case append h _ =>
    have hl : j < l.length := (List.getElem?_eq_some_iff.mp hj).1
    exact ⟨b, by rw [h, List.getElem?_append_left hl, hj], refl j b⟩

theorem origin (refl : ∀ j b, R j b b) (h : Steps R S l l') (hj : l'[j]? = some b') :
    (∃ b, l[j]? = some b ∧ R j b b') ∨ S j b' := by
  cases h
  case update h =>
    have h := h j
    rw [hj] at h
    generalize l[j]? = x at h
    cases h
    case some b hr => exact .inl ⟨b, rfl, hr⟩
  case append b h hs =>
    rw [h, List.getElem?_append] at hj
    split at hj
    case isTrue     => exact .inl ⟨b', hj, refl j b'⟩
    case isFalse hl =>
      have ⟨hz, hb⟩ : j - l.length = 0 ∧ b = b' := by simpa [List.getElem?_singleton] using hj
      have hj : j = l.length := by omega
      exact .inr <| hj ▸ hb ▸ hs

theorem length_le (h : Steps R S l l') : l'.length ≤ l.length + 1 := by
  cases h
  case append h _ => simp [h]
  case update h   =>
    by_contra hl
    have hr := h l.length
    rw [List.getElem?_eq_none le_rfl, List.getElem?_eq_getElem (by omega)] at hr
    cases hr

-- Of two records only the later one can be new.
theorem origin_of_lt (refl : ∀ j b, R j b b) (h : Steps R S l l') (hij : i < j)
    (hi : l'[i]? = some a') (hj : l'[j]? = some b') :
    ∃ a, l[i]? = some a ∧ R i a a' ∧ ((∃ b, l[j]? = some b ∧ R j b b') ∨ S j b') := by
  have hjl : j < l'.length := (List.getElem?_eq_some_iff.mp hj).1
  have hil : i < l.length := by
    have := h.length_le
    omega
  obtain ⟨a, ha, hr⟩ := h.kept refl <| List.getElem?_eq_getElem hil
  cases Option.some.inj <| ha.symm.trans hi
  exact ⟨l[i], List.getElem?_eq_getElem hil, hr, h.origin refl hj⟩

end Steps

section Modify

variable {β γ : Type*} {l : List β} {i : Nat} {b : β}

theorem sum_map_modify (g : β → Nat) (f : β → β) (h : l[i]? = some b) :
    ((l.modify i f).map g).sum + g b = (l.map g).sum + g (f b) := by
  induction l generalizing i
  case nil => simp at h
  case cons c l hi =>
    cases i
    case zero   =>
      cases h
      simp only [List.modify_zero_cons, List.map_cons, List.sum_cons]
      omega
    case succ i =>
      have := hi (i := i) (by simpa using h)
      simp only [List.modify_succ_cons, List.map_cons, List.sum_cons]
      omega

theorem length_filterMap_eraseIdx (g : β → Option γ) (h : l[i]? = some b) (hb : (g b).isSome) :
    ((l.eraseIdx i).filterMap g).length < (l.filterMap g).length := by
  obtain ⟨c, hc⟩ := Option.isSome_iff_exists.mp hb
  obtain ⟨hi, rfl⟩ := List.getElem?_eq_some_iff.mp h
  have hl : l.filterMap g = (l.take i ++ l[i] :: l.drop (i + 1)).filterMap g := by simp
  rw [hl, List.eraseIdx_eq_take_drop_succ, List.filterMap_append, List.filterMap_append,
    List.filterMap_cons_some hc]
  simp

end Modify

section Latest

variable {β : Type*} {l : List β} {p : β → Bool}

def latest (p : β → Bool) (l : List β) : Option β :=
  l.reverse.find? p

theorem latest_eq_none : latest p l = none ↔ ∀ b ∈ l, ¬p b := by
  simp [latest]

theorem latest_eq_some (h : latest p l = some b) :
    p b ∧ ∃ i : Nat, l[i]? = some b ∧ ∀ (j : Nat) (c : β), i < j → l[j]? = some c → ¬p c := by
  have ⟨hb, post, pre, hr, hpost⟩ := List.find?_eq_some_iff_append.mp h
  have hl : l = pre.reverse ++ b :: post.reverse := by
    rw [← l.reverse_reverse, hr]
    simp
  refine ⟨hb, pre.length, by simp [hl], fun j c hj hc => ?_⟩
  rw [hl, List.getElem?_append_right (by simpa using hj.le)] at hc
  have ⟨n, hn⟩ : ∃ n, j - pre.reverse.length = n + 1 := ⟨j - pre.length - 1, by simp; omega⟩
  rw [hn, List.getElem?_cons_succ] at hc
  simpa using hpost c <| List.mem_reverse.mp <| List.mem_of_getElem? hc

end Latest

section FirstMax

variable {ι τ : Type*} [LinearOrder ι] {l : List (ι × τ)} {e d : ι × τ}

-- The first of the records with the largest key.
structure IsFirstMax (l : List (ι × τ)) (e : ι × τ) : Prop where
  split : ∃ before after, l = before ++ e :: after ∧ (∀ d ∈ before, d.1 < e.1) ∧
    ∀ d ∈ after, d.1 ≤ e.1

theorem isFirstMax_singleton (e : ι × τ) : IsFirstMax [e] e :=
  ⟨[], [], rfl, by simp, by simp⟩

namespace IsFirstMax

theorem append_of_le (h : IsFirstMax l e) (hd : d.1 ≤ e.1) : IsFirstMax (l ++ [d]) e := by
  have ⟨before, after, hl, hb, ha⟩ := h.split
  refine ⟨before, after ++ [d], by simp [hl], hb, fun c hc => ?_⟩
  cases List.mem_append.mp hc
  case inl hc => exact ha c hc
  case inr hc => exact List.mem_singleton.mp hc ▸ hd

theorem le (h : IsFirstMax l e) (hd : d ∈ l) : d.1 ≤ e.1 := by
  have ⟨before, after, hl, hb, ha⟩ := h.split
  cases List.mem_append.mp <| hl ▸ hd
  case inl hd => exact (hb d hd).le
  case inr hd => exact (List.mem_cons.mp hd).elim (fun hd => hd ▸ le_rfl) (ha d)

theorem append_of_lt (h : IsFirstMax l e) (hd : e.1 < d.1) : IsFirstMax (l ++ [d]) d :=
  ⟨l, [], rfl, fun _ hc => (h.le hc).trans_lt hd, by simp⟩

end IsFirstMax
end FirstMax

-- Where each event makes a record, there is one record for each event, in the same order.
theorem forall₂_filterMap {β γ : Type*} {f : β → Option γ} {l : List β}
    (h : ∀ x ∈ l, (f x).isSome) : List.Forall₂ (fun x y => f x = some y) l (l.filterMap f) := by
  induction l
  case nil => exact .nil
  case cons x l hi =>
    obtain ⟨y, hy⟩ := Option.isSome_iff_exists.mp <| h x List.mem_cons_self
    rw [List.filterMap_cons_some hy]
    exact .cons hy <| hi fun x hx => h x <| List.mem_cons_of_mem _ hx

section Pairs

variable {R : β → γ → Prop} {l : List β} {l' : List γ}

theorem rel_getElem? (h : List.Forall₂ R l l') (i : Nat) : Option.Rel R l[i]? l'[i]? := by
  induction h generalizing i
  case nil           => exact .none
  case cons hb _ hi =>
    cases i
    case zero   => simpa using Option.Rel.some hb
    case succ i => simpa using hi i

theorem forall₂_eraseIdx (h : List.Forall₂ R l l') (i : Nat) :
    List.Forall₂ R (l.eraseIdx i) (l'.eraseIdx i) := by
  induction h generalizing i
  case nil           => exact .nil
  case cons hb h hi =>
    cases i
    case zero   => exact h
    case succ i => exact .cons hb (hi i)

end Pairs
end Log

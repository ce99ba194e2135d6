import Mathlib.Data.List.Perm.Subperm
import Mathlib.Tactic

-- Quorums over a finite list of members, with thresholds clamped to the number of members.
namespace Quorum

variable {α : Type*} {l l₁ l₂ : List α}

theorem length_le_of_nodup_subset (h : l₁.Nodup) (s : l₁ ⊆ l) : l₁.length ≤ l.length :=
  (h.subperm s).length_le

-- Two duplicate-free groups of members, which together count more than all members, overlap.
theorem exists_mem_both (h₁ : l₁.Nodup) (h₂ : l₂.Nodup) (s₁ : l₁ ⊆ l) (s₂ : l₂ ⊆ l)
    (h : l.length < l₁.length + l₂.length) : ∃ x ∈ l₁, x ∈ l₂ := by
  by_contra hc
  push Not at hc
  have hd : (l₁ ++ l₂).Nodup := h₁.append h₂ hc
  have := length_le_of_nodup_subset hd <| List.append_subset.mpr ⟨s₁, s₂⟩
  rw [List.length_append] at this
  omega

theorem lt_min_add_min (hr : 0 < r) (hw : 0 < w) (h : n < r + w) (hp : p ≤ n) (hpos : 0 < p) :
    p < min r p + min w p := by
  omega

end Quorum

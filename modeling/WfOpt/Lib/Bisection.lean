import Mathlib

/-!
# Bisection

The search for the first position of a range that does not have a property, in a range where the
positions that have it come first: the range is halved at its middle until nothing is left of it. So do
the searches for the lower and for the upper bound of a value in a sorted range.
-/

namespace WfOpt

/-- The halving loop, on `len` positions from `first` on, which are halved at most `len` times. -/
@[simp] def bisect (p : ℕ → Bool) : (fuel first len : ℕ) → ℕ
  | 0, first, _ => first
  | fuel + 1, first, len =>
    if len = 0 then first
    else
      let half := len / 2
      let middle := first + half
      if p middle then bisect p fuel (middle + 1) (len - half - 1) else bisect p fuel first half

/-- The first position from `first` to `last` without the property. -/
def partitionPoint (p : ℕ → Bool) (first last : ℕ) : ℕ := bisect p (last - first) first (last - first)

theorem bisect_eq {p : ℕ → Bool} {c : ℕ} : ∀ {fuel first len : ℕ}, len ≤ fuel → first ≤ c →
    c ≤ first + len → (∀ i, first ≤ i → i < c → p i = true) →
    (∀ i, c ≤ i → i < first + len → p i = false) → bisect p fuel first len = c
  | 0, first, len, hfuel, hfst, hlst, _, _ => by
    rw [bisect]
    omega
  | fuel + 1, first, len, hfuel, hfst, hlst, hbef, hafter => by
    rw [bisect]
    by_cases hlen : len = 0
    · rw [if_pos hlen]
      omega
    rw [if_neg hlen]
    dsimp only
    have hhalf : len / 2 < len := Nat.div_lt_self (Nat.pos_of_ne_zero hlen) (by decide)
    by_cases hmid : first + len / 2 < c
    · -- the position is behind the middle
      rw [if_pos (hbef _ (Nat.le_add_right _ _) hmid)]
      refine bisect_eq (by omega) hmid (by omega) (fun i h₁ h₂ => hbef i (by omega) h₂) ?_
      intro i h₁ h₂
      exact hafter i h₁ (by omega)
    · have hp := hafter (first + len / 2) (not_lt.1 hmid) (by omega)
      rw [hp, if_neg Bool.false_ne_true]
      refine bisect_eq (by omega) hfst (not_lt.1 hmid) hbef ?_
      intro i h₁ h₂
      exact hafter i h₁ (by omega)

/-- The positions that have the property are before the partition point, the others are from there
    on. -/
theorem partitionPoint_eq {p : ℕ → Bool} {first c last : ℕ} (hfst : first ≤ c) (hlst : c ≤ last)
    (hbef : ∀ i, first ≤ i → i < c → p i = true) (hafter : ∀ i, c ≤ i → i < last → p i = false) :
    partitionPoint p first last = c := by
  refine bisect_eq le_rfl hfst (by omega) hbef fun i h₁ h₂ => hafter i h₁ ?_
  omega

/-- If the positions that have a property come first, there is a partition point. -/
theorem exists_partitionPoint {p : ℕ → Bool} {first last : ℕ} (h : first ≤ last)
    (hmono : ∀ i j, first ≤ i → i ≤ j → j < last → p j = true → p i = true) :
    ∃ c, first ≤ c ∧ c ≤ last ∧ (∀ i, first ≤ i → i < c → p i = true) ∧ ∀ i, c ≤ i → i < last → p i = false := by
  induction last, h using Nat.le_induction with
  | base => exact ⟨first, le_rfl, le_rfl, fun i h₁ h₂ => absurd h₁ (not_le.2 h₂),
      fun i h₁ h₂ => absurd h₁ (not_le.2 h₂)⟩
  | succ last hle ih =>
    by_cases hlst : p last = true
    · refine ⟨last + 1, by omega, le_rfl, fun i h₁ h₂ => ?_, fun i h₁ h₂ => absurd h₁ (not_le.2 h₂)⟩
      exact hmono i last h₁ (Nat.le_of_lt_succ h₂) last.lt_succ_self hlst
    · obtain ⟨c, hfst, hc, hbef, hafter⟩ := ih fun i j h₁ h₂ h₃ =>
        hmono i j h₁ h₂ (Nat.lt_succ_of_lt h₃)
      refine ⟨c, hfst, Nat.le_succ_of_le hc, hbef, fun i h₁ h₂ => ?_⟩
      rcases Nat.lt_or_ge i last with hlt | hge
      · exact hafter i h₁ hlt
      · rw [show i = last by omega]
        exact Bool.not_eq_true _ ▸ hlst

end WfOpt

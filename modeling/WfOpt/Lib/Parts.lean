import Mathlib

/-!
# Parts of a range

A range that is cut into parts is given by the starts of the parts, in increasing order. A position is in
the last part that starts at or before it (`partOf`). That part is found by counting starts, or by a search
for the first start behind the position (`findIdx_starts`).
-/

namespace WfOpt

open List

/-- The part that a position is in. -/
def partOf (starts : List ℕ) (b : ℕ) : ℕ := starts.countP (fun s => s ≤ b) - 1

variable {starts : List ℕ} {a b n p : ℕ}

theorem countP_starts_of_lt (h : ∀ s ∈ starts, b < s) : starts.countP (fun s => s ≤ b) = 0 := by
  rw [countP_eq_zero]
  intro s hs
  simp [h s hs]

theorem countP_cons_starts_of_lt (hsts : (a :: starts).Pairwise (· < ·)) (h : b < a) :
    (a :: starts).countP (fun s => s ≤ b) = 0 := by
  refine countP_starts_of_lt fun s hs => ?_
  cases hs with
  | head => exact h
  | tail _ hs => exact h.trans ((pairwise_cons.1 hsts).1 s hs)

/-- The parts that start at or before a position come first. -/
theorem getElem_le_iff (hsts : starts.Pairwise (· < ·)) (hp : p < starts.length) :
    starts[p] ≤ b ↔ p < starts.countP (fun s => s ≤ b) := by
  induction starts generalizing p with
  | nil => exact absurd hp (Nat.not_lt_zero p)
  | cons a starts ih =>
    rcases Nat.lt_or_ge b a with hlt | hge
    · rw [countP_cons_starts_of_lt hsts hlt]
      refine iff_of_false (fun h => ?_) (Nat.not_lt_zero p)
      cases p with
      | zero => exact absurd hlt (Nat.not_lt.2 h)
      | succ p => exact absurd (hlt.trans ((pairwise_cons.1 hsts).1 _ (getElem_mem _))) (Nat.not_lt.2 h)
    · rw [countP_cons_of_pos (by simpa using hge)]
      cases p with
      | zero => exact iff_of_true hge (Nat.succ_pos _)
      | succ p =>
        rw [Nat.succ_lt_succ_iff]
        exact ih (pairwise_cons.1 hsts).2 (Nat.lt_of_succ_lt_succ hp)

/-- The search for the first start behind a position. -/
theorem findIdx_starts (hsts : starts.Pairwise (· < ·)) :
    starts.findIdx (fun s => b < s) = starts.countP (fun s => s ≤ b) := by
  induction starts with
  | nil => rfl
  | cons a starts ih =>
    rw [findIdx_cons]
    rcases Nat.lt_or_ge b a with hlt | hge
    · rw [countP_cons_starts_of_lt hsts hlt, decide_eq_true hlt]
      rfl
    · rw [countP_cons_of_pos (by simpa using hge), decide_eq_false (Nat.not_lt.2 hge), ← ih (pairwise_cons.1 hsts).2]
      rfl

theorem partOf_mono (h : a ≤ b) : partOf starts a ≤ partOf starts b := by
  refine Nat.sub_le_sub_right (countP_mono_left fun s _ hs => ?_) 1
  simp only [decide_eq_true_eq] at hs ⊢
  exact hs.trans h

theorem countP_starts_pos (hmem : a ∈ starts) (h : a ≤ b) : 0 < starts.countP (fun s => s ≤ b) := by
  rw [countP_pos_iff]
  exact ⟨a, hmem, by simpa using h⟩

theorem partOf_lt_length (h : starts ≠ []) : partOf starts b < starts.length := by
  have hlen : 0 < starts.length := length_pos_iff.2 h
  have hcnt : starts.countP (fun s => s ≤ b) ≤ starts.length := countP_le_length
  rw [partOf]
  omega

/-- A part starts at or before a position if it is not behind the part of the position. -/
theorem getElem_le_iff_partOf (hsts : starts.Pairwise (· < ·)) (hmem : 0 ∈ starts) (hp : p < starts.length) :
    starts[p] ≤ b ↔ p ≤ partOf starts b := by
  rw [getElem_le_iff hsts hp, partOf]
  have hpos := countP_starts_pos hmem (Nat.zero_le b)
  omega

end WfOpt

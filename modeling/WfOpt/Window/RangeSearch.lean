import WfOpt.Window.Boundaries

/-!
# Searching range frames

The bounds of a range frame are found by binary search among the sorted rows of a partition whose ordering values are
not `NULL`. The previous frame restricts the search, or it is the result already: the search finds the start, or
returns a hint whose value is the one searched (`searchRange_start_cases`), and so for an end, with the value before
the hint (`searchRange_stop_cases`).
-/

namespace WfOpt

open Bool (false_ne_true not_eq_true)

namespace WindowBoundaries

variable {V : Type*} [LinearOrder V]

/-! ## Comparisons -/

section Comp

variable {sense : OrderType} {x y z : V}

theorem comp_self : comp sense x x = false := by
  cases sense <;> exact decide_eq_false (lt_irrefl x)

/-- Values neither of which is before the other are equal. -/
theorem eq_of_comp_eq_false (h : comp sense x y = false) (h' : comp sense y x = false) : x = y := by
  cases sense <;> simp only [comp, decide_eq_false_iff_not] at h h' <;> order

theorem comp_of_comp_of_le (h : comp sense x y = true) (h' : comp sense z y = false) : comp sense x z = true := by
  cases sense <;> simp only [comp, decide_eq_true_iff, decide_eq_false_iff_not] at h h' ⊢ <;> order

theorem comp_of_le_of_comp (h : comp sense y x = false) (h' : comp sense y z = true) : comp sense x z = true := by
  cases sense <;> simp only [comp, decide_eq_true_iff, decide_eq_false_iff_not] at h h' ⊢ <;> order

theorem comp_le_trans (h : comp sense y x = false) (h' : comp sense z y = false) : comp sense z x = false := by
  cases sense <;> simp only [comp, decide_eq_false_iff_not] at h h' ⊢ <;> order

end Comp

/-! ## Bounds among sorted values -/

variable {sense : OrderType} {value : ℕ → V} {first last f : ℕ} {val : V}

/-- The values from `first` to `last` are sorted. -/
def IsSorted (sense : OrderType) (value : ℕ → V) (first last : ℕ) : Prop :=
  ∀ i j, first ≤ i → i ≤ j → j < last → comp sense (value j) (value i) = false

/-- The first row whose value is not before `val`, or else `last`. -/
structure IsLowerBound (sense : OrderType) (value : ℕ → V) (first last : ℕ) (val : V) (f : ℕ) : Prop where
  first_le : first ≤ f
  le_last : f ≤ last
  before : ∀ i, first ≤ i → i < f → comp sense (value i) val = true
  after : ∀ i, f ≤ i → i < last → comp sense (value i) val = false

/-- One past the last row whose value is not after `val`, or else `first`. -/
structure IsUpperBound (sense : OrderType) (value : ℕ → V) (first last : ℕ) (val : V) (f : ℕ) : Prop where
  first_le : first ≤ f
  le_last : f ≤ last
  before : ∀ i, first ≤ i → i < f → comp sense val (value i) = false
  after : ∀ i, f ≤ i → i < last → comp sense val (value i) = true

namespace IsLowerBound

/-- Fewer rows are searched. -/
theorem restrict (h : IsLowerBound sense value first last val f) {first' last' : ℕ}
    (hfirst : first ≤ first') (hf : first' ≤ f) (hf' : f ≤ last') (hlast : last' ≤ last) :
    IsLowerBound sense value first' last' val f :=
  ⟨hf, hf', fun i h₁ => h.before i (hfirst.trans h₁), fun i h₁ h₂ => h.after i h₁ (h₂.trans_le hlast)⟩

theorem lowerBound_eq (h : IsLowerBound sense value first last val f) : lowerBound sense value first last val = f :=
  partitionPoint_eq h.first_le h.le_last h.before h.after

theorem exists_of_sorted (hsorted : IsSorted sense value first last) (h : first ≤ last) (val : V) :
    ∃ f, IsLowerBound sense value first last val f := by
  obtain ⟨f, h₁, h₂, h₃, h₄⟩ := exists_partitionPoint (p := fun i => comp sense (value i) val) h
    fun i j hi hij hj hp => comp_of_le_of_comp (hsorted i j hi hij hj) hp
  exact ⟨f, h₁, h₂, h₃, h₄⟩

end IsLowerBound

namespace IsUpperBound

theorem restrict (h : IsUpperBound sense value first last val f) {first' last' : ℕ}
    (hfirst : first ≤ first') (hf : first' ≤ f) (hf' : f ≤ last') (hlast : last' ≤ last) :
    IsUpperBound sense value first' last' val f :=
  ⟨hf, hf', fun i h₁ => h.before i (hfirst.trans h₁), fun i h₁ h₂ => h.after i h₁ (h₂.trans_le hlast)⟩

theorem upperBound_eq (h : IsUpperBound sense value first last val f) :
    upperBound sense value first last val = f := by
  refine partitionPoint_eq h.first_le h.le_last (fun i h₁ h₂ => ?_) fun i h₁ h₂ => ?_
  · rw [h.before i h₁ h₂, Bool.not_false]
  · rw [h.after i h₁ h₂, Bool.not_true]

theorem exists_of_sorted (hsorted : IsSorted sense value first last) (h : first ≤ last) (val : V) :
    ∃ f, IsUpperBound sense value first last val f := by
  obtain ⟨f, h₁, h₂, h₃, h₄⟩ := exists_partitionPoint (p := fun i => !comp sense val (value i)) h
    fun i j hi hij hj hp => by
      rw [Bool.not_eq_true'] at hp ⊢
      exact comp_le_trans (hsorted i j hi hij hj) hp
  refine ⟨f, h₁, h₂, fun i hi hif => ?_, fun i hi hif => ?_⟩
  · have hbef := h₃ i hi hif
    rwa [Bool.not_eq_true'] at hbef
  · have hafter := h₄ i hi hif
    rwa [Bool.not_eq_false'] at hafter

end IsUpperBound

/-! ## Searching with hints -/

variable {orderBegin orderEnd : ℕ} {prev : FrameBounds}

/-- The start that is found is right, unless the previous one has the value that is searched. -/
theorem searchRange_start_cases (hf : IsLowerBound sense value orderBegin orderEnd val f)
    (hstp : orderEnd ≤ prev.stop) :
    searchRange sense true value orderBegin orderEnd val prev = f ∨
      searchRange sense true value orderBegin orderEnd val prev = prev.start ∧
        orderBegin ≤ prev.start ∧ prev.start < orderEnd ∧ value prev.start = val := by
  have hend : hintEnd sense true value orderBegin orderEnd val prev = .search orderEnd := by
    rw [hintEnd, if_neg]
    rintro ⟨-, -, hlt, -⟩
    exact absurd hlt (not_lt.2 hstp)
  rw [searchRange, hend]
  by_cases hhint : prev.start < prev.stop ∧ orderBegin ≤ prev.start ∧ prev.start < orderEnd ∧
      true = true ∧ ¬comp sense val (value prev.start) = true
  · rw [hintBegin, if_pos hhint]
    obtain ⟨-, hbeg, hlt, -, hval⟩ := hhint
    by_cases hbef : comp sense (value prev.start) val = true
    · -- the start is behind the hint
      rw [if_pos hbef]
      refine .inl (hf.restrict hbeg ?_ hf.le_last le_rfl).lowerBound_eq
      by_contra hle
      have hafter := hf.after prev.start (not_le.1 hle).le hlt
      exact false_ne_true (hafter.symm.trans hbef)
    · rw [if_neg hbef]
      exact .inr ⟨rfl, hbeg, hlt, eq_of_comp_eq_false (not_eq_true _ ▸ hbef) (not_eq_true _ ▸ hval)⟩
  · rw [hintBegin, if_neg hhint]
    exact .inl hf.lowerBound_eq

/-- The end that is found is right, unless the row before the previous one has the value that is
    searched. -/
theorem searchRange_stop_cases (hf : IsUpperBound sense value orderBegin orderEnd val f) :
    searchRange sense false value orderBegin orderEnd val prev = f ∨
      searchRange sense false value orderBegin orderEnd val prev = prev.stop ∧
        orderBegin < prev.stop ∧ prev.stop < orderEnd ∧ value (prev.stop - 1) = val := by
  have hbeg : hintBegin sense false value orderBegin orderEnd val prev = .search orderBegin := by
    rw [hintBegin, if_neg]
    rintro ⟨-, -, -, hfls, -⟩
    exact false_ne_true hfls
  rw [searchRange, hbeg]
  by_cases hhint : prev.start < prev.stop ∧ orderBegin < prev.stop ∧ prev.stop < orderEnd ∧
      ¬comp sense (value (prev.stop - 1)) val = true
  · rw [hintEnd, if_pos hhint]
    obtain ⟨-, hlt, hlt', hval⟩ := hhint
    by_cases hafter : comp sense val (value (prev.stop - 1)) = true
    · -- the end is before the hint
      rw [if_neg fun h => h.2 hafter]
      refine .inl (hf.restrict le_rfl hf.first_le ?_ hlt').upperBound_eq
      by_contra hle
      have hbef := hf.before (prev.stop - 1) (by omega) (by omega)
      exact false_ne_true (hbef.symm.trans hafter)
    · rw [if_pos ⟨false_ne_true, hafter⟩]
      exact .inr ⟨rfl, hlt, hlt', eq_of_comp_eq_false (not_eq_true _ ▸ hval) (not_eq_true _ ▸ hafter)⟩
  · rw [hintEnd, if_neg hhint]
    exact .inl hf.upperBound_eq

theorem searchRange_stop_eq (hst : prev.start < prev.stop) (hbeg : orderBegin < prev.stop)
    (hend : prev.stop < orderEnd) (hval : value (prev.stop - 1) = val) :
    searchRange sense false value orderBegin orderEnd val prev = prev.stop := by
  have hself : comp sense val val = false := comp_self
  have hhintBegin : hintBegin sense false value orderBegin orderEnd val prev = .search orderBegin := by
    rw [hintBegin, if_neg]
    rintro ⟨-, -, -, hfls, -⟩
    exact false_ne_true hfls
  have hhintEnd : hintEnd sense false value orderBegin orderEnd val prev = .done prev.stop := by
    rw [hintEnd, hval, hself, if_pos ⟨hst, hbeg, hend, false_ne_true⟩, if_pos ⟨false_ne_true, false_ne_true⟩]
  rw [searchRange, hhintBegin, hhintEnd]

/-! ## Searching up to a row, or from it on -/

section Row

variable {row : ℕ} (hsorted : IsSorted sense value first last) (hfirst : first ≤ row) (hlast : row < last)

include hsorted hfirst hlast

/-- A start that precedes a row is found up to it. -/
theorem IsLowerBound.of_preceding (hval : comp sense (value row) val = false)
    (h : IsLowerBound sense value first (row + 1) val f) : IsLowerBound sense value first last val f := by
  refine ⟨h.first_le, h.le_last.trans hlast, h.before, fun i h₁ h₂ => ?_⟩
  rcases Nat.lt_or_ge i (row + 1) with hlt | hge
  · exact h.after i h₁ hlt
  · exact comp_le_trans hval (hsorted row i hfirst (by omega) h₂)

/-- A start that follows a row is found from it on, unless the row has the value, and peers before it. -/
theorem IsLowerBound.of_following_iff (hval : comp sense val (value row) = false)
    (h : IsLowerBound sense value row last val f) :
    IsLowerBound sense value first last val f ↔ comp sense (value row) val = true ∨
      ∀ i, first ≤ i → i < row → comp sense (value i) (value row) = true := by
  constructor
  · intro hall
    cases hrow : comp sense (value row) val with
    | true => exact .inl rfl
    | false =>
      refine .inr fun i h₁ h₂ => ?_
      rw [← eq_of_comp_eq_false hval hrow]
      exact hall.before i h₁ (h₂.trans_le h.first_le)
  · intro hprs
    refine ⟨hfirst.trans h.first_le, h.le_last, fun i h₁ h₂ => ?_, h.after⟩
    rcases Nat.lt_or_ge i row with hlt | hge
    · rcases hprs with hrow | hprs
      · exact comp_of_le_of_comp (hsorted i row h₁ hlt.le hlast) hrow
      · exact comp_of_comp_of_le (hprs i h₁ hlt) hval
    · exact h.before i hge h₂

theorem IsUpperBound.of_following (hval : comp sense val (value row) = false)
    (h : IsUpperBound sense value row last val f) : IsUpperBound sense value first last val f := by
  refine ⟨hfirst.trans h.first_le, h.le_last, fun i h₁ h₂ => ?_, h.after⟩
  rcases Nat.lt_or_ge i row with hlt | hge
  · exact comp_le_trans (hsorted i row h₁ hlt.le hlast) hval
  · exact h.before i hge h₂

/-- An end that precedes a row is found up to it, unless the row has the value, and peers behind it. -/
theorem IsUpperBound.of_preceding (hval : comp sense (value row) val = false)
    (h : IsUpperBound sense value first (row + 1) val f)
    (hprs : comp sense val (value row) = true ∨ ∀ i, row < i → i < last → comp sense (value row) (value i) = true) :
    IsUpperBound sense value first last val f := by
  refine ⟨h.first_le, h.le_last.trans hlast, h.before, fun i h₁ h₂ => ?_⟩
  rcases Nat.lt_or_ge i (row + 1) with hlt | hge
  · exact h.after i h₁ hlt
  · rcases hprs with hrow | hprs
    · exact comp_of_comp_of_le hrow (hsorted row i hfirst (by omega) h₂)
    · exact comp_of_le_of_comp hval (hprs i hge h₂)

omit hsorted in
theorem IsUpperBound.peers_of_le (hval : comp sense (value row) val = false)
    (h : IsUpperBound sense value first last val f) (hf : f ≤ row + 1) :
    comp sense val (value row) = true ∨ ∀ i, row < i → i < last → comp sense (value row) (value i) = true := by
  cases hrow : comp sense val (value row) with
  | true => exact .inl rfl
  | false =>
    refine .inr fun i h₁ h₂ => ?_
    rw [eq_of_comp_eq_false hval hrow]
    exact h.after i (hf.trans h₁) h₂

end Row

end WindowBoundaries

end WfOpt

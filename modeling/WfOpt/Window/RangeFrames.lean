import WfOpt.Window.ValidBounds

/-!
# Frames of ranges

A range frame starts with the first valid row of the partition whose value is not before a boundary value, and ends
behind the last one whose value is not after another one. They are searched up to the current row if they precede
it, and from it on if they follow it, with the frame of the row before as a hint. A start that follows the row, or
an end that precedes it, is not found among the peers of the row (`rangeFrames_iff`).
-/

namespace WfOpt

open Nat

namespace WindowBoundaries

open BoundWindowExpression

variable {V : Type*} [LinearOrder V] {g : WindowBoundaries V} {call : BoundsCall V} {b : BoundsColumns}
  {sense : OrderType} {nulls : OrderByNullType}

/-! ## Loops with hints -/

section Hints

variable {isNull : ℕ → Bool} {null partition reset : ℕ → ℕ} {search : ℕ → ℕ → Except BoundsError ℕ}

/-- A cell of a loop with a hint: the bound of the last cell that was searched, if it is one of the same
    partition. -/
def hintedCell (isNull : ℕ → Bool) (null partition reset : ℕ → ℕ)
    (search : ℕ → ℕ → Except BoundsError ℕ) (i : ℕ) (prev : PrevBound) :
    Except BoundsError (PrevBound × ℕ) :=
  if isNull i then .ok (prev, null i)
  else do
    let bound ← search i (if partition i = prev.partition then prev.bound else reset i)
    return (⟨partition i, bound⟩, bound)

section

variable (boundary : WindowInputExpression V) (preceding : Bool)

theorem rangeBeginCell_eq
    (orderBegin orderEnd : ℕ → ℕ) : g.rangeBeginCell boundary b preceding orderBegin orderEnd =
      hintedCell boundary.cellIsNull (b .peerBegin) (b .partitionBegin) (b .validBegin) fun i start =>
        g.findOrderedRangeBound true (orderBegin i) (orderEnd i) preceding (boundary.getCell i)
          ⟨start, b .validEnd i⟩ := rfl

theorem rangeEndCell_eq
    (orderBegin orderEnd resetEnd : ℕ → ℕ) :
    g.rangeEndCell boundary b preceding orderBegin orderEnd resetEnd =
      hintedCell boundary.cellIsNull (b .peerEnd) (b .partitionBegin) resetEnd fun i stop =>
        g.findOrderedRangeBound false (orderBegin i) (orderEnd i) preceding (boundary.getCell i)
          ⟨b .validBegin i, stop⟩ := rfl

end

/-- If searches with fine hints find good bounds, and good bounds and starts of partitions are fine hints, all bounds
    are good. -/
theorem hintedCells_spec (good fine : ℕ → ℕ → Prop) {n : ℕ} {init : PrevBound}
    (hsrch : ∀ i < n, isNull i = false → ∀ h, fine i h → ∃ v, search i h = .ok v ∧ good i v)
    (hreset : ∀ i < n, isNull i = false →
      (partition i ≠ init.partition ∨ ∃ k < i, isNull k = false) → fine i (reset i))
    (hnx : ∀ i j, i < j → j < n → isNull i = false → isNull j = false → partition i = partition j →
      ∀ v, good i v → fine j v)
    (hinit : ∀ i < n, isNull i = false → (∀ k < i, isNull k = true) → partition i = init.partition →
      fine i init.bound) :
    ∃ prev vs, tryCells (hintedCell isNull null partition reset search) n 0 init = .ok (prev, vs) ∧
      vs.length = n ∧ ∀ k (h : k < vs.length), isNull k = false → good k vs[k] := by
  have hspec := tryCells_spec (f := hintedCell isNull null partition reset search) (n := n) (i := 0) (s := init)
    (I := fun i prev => (∀ k < i, isNull k = true) ∧ prev = init ∨
      ∃ k < i, isNull k = false ∧ prev.partition = partition k ∧ good k prev.bound)
    (Q := fun i v => isNull i = false → good i v)
    (.inl ⟨fun k hk => absurd hk (Nat.not_lt_zero k), rfl⟩) ?_
  · obtain ⟨prev, vs, hrun, -, hlen, hall⟩ := hspec
    refine ⟨prev, vs, hrun, hlen, fun k hk hnl => ?_⟩
    have hgood := hall k hk
    rw [Nat.zero_add] at hgood
    exact hgood hnl
  · intro i prev _ hi hinv
    rw [Nat.zero_add] at hi
    rw [hintedCell]
    cases hnl : isNull i with
    | true =>
      refine ⟨prev, null i, if_pos rfl, hinv.imp ?_ ?_, fun h => absurd h (by decide)⟩
      · rintro ⟨hno, rfl⟩
        refine ⟨fun k hk => ?_, rfl⟩
        rcases Nat.lt_or_ge k i with hlt | hge
        · exact hno k hlt
        · rwa [show k = i by omega]
      · rintro ⟨k, hk, hgood⟩
        exact ⟨k, lt_succ_of_lt hk, hgood⟩
    | false =>
      have hfine : fine i (if partition i = prev.partition then prev.bound else reset i) := by
        by_cases hsm : partition i = prev.partition
        · rw [if_pos hsm]
          rcases hinv with ⟨hno, rfl⟩ | ⟨k, hk, hnl', hpart, hgood⟩
          · exact hinit i hi hnl hno hsm
          · exact hnx k i hk hi hnl' hnl (hpart.symm.trans hsm.symm) _ hgood
        · rw [if_neg hsm]
          refine hreset i hi hnl (hinv.imp ?_ ?_)
          · rintro ⟨-, rfl⟩
            exact hsm
          · rintro ⟨k, hk, hnl', -⟩
            exact ⟨k, hk, hnl'⟩
      obtain ⟨v, hv, hgood⟩ := hsrch i hi hnl _ hfine
      refine ⟨⟨partition i, v⟩, v, ?_, .inr ⟨i, i.lt_succ_self, hnl, rfl, hgood⟩, fun _ => hgood⟩
      rw [if_neg Bool.false_ne_true, hv]
      rfl

end Hints

/-! ## Rows of a chunk -/

variable (g) in
/-- The first valid row of the partition of a cell. -/
def validBeginAt (b : BoundsColumns) (i : ℕ) : ℕ := g.findValidBegin (b .partitionBegin i) (b .partitionEnd i)

variable (g) in
/-- The end of the valid rows of the partition of a cell. -/
def validEndAt (b : BoundsColumns) (i : ℕ) : ℕ := g.findValidEnd (g.validBeginAt b i) (b .partitionEnd i)

variable (g) in
/-- The columns have the bounds of the partitions, and the first valid rows of these. -/
structure RangeColumns (call : BoundsCall V) (b : BoundsColumns) : Prop where
  start : ∀ i < call.count, IsStartOf g.partitionMask.rowIsValid (call.rowIdx + i) (b .partitionBegin i)
  stop : ∀ i < call.count,
    IsEndOf g.partitionMask.rowIsValid g.inputSize (call.rowIdx + i) (b .partitionEnd i)
  validBegin : ∀ i < call.count, b .validBegin i = g.validBeginAt b i

namespace RangeColumns

variable (hg : g.IsRangeGroup sense nulls) (h : g.RangeColumns call b) {i j : ℕ} (hi : i < call.count)

include h hi

omit [LinearOrder V] in
/-- Rows of a partition have the same bounds. -/
theorem same_partition (hj : j < call.count) (hsm : b .partitionBegin i = b .partitionBegin j) :
    g.validBeginAt b i = g.validBeginAt b j ∧ g.validEndAt b i = g.validEndAt b j := by
  have hstp : ∀ k < call.count, b .partitionEnd k =
      (nthMark g.partitionMask.rowIsValid (b .partitionBegin k + 1) g.inputSize 1).1 := by
    intro k hk
    have hend := h.stop k hk
    exact hend.unique (IsEndOf.of_start (h.start k hk) (hend.lt.trans_le hend.le))
  have heq : b .partitionEnd i = b .partitionEnd j := by rw [hstp i hi, hstp j hj, hsm]
  have hbegin : g.validBeginAt b i = g.validBeginAt b j := by
    rw [validBeginAt, validBeginAt, hsm, heq]
  exact ⟨hbegin, by rw [validEndAt, validEndAt, hbegin, heq]⟩

include hg

theorem isValidRange : g.IsValidRange (b .partitionBegin i) (b .partitionEnd i) (g.validBeginAt b i)
    (g.validEndAt b i) := WindowBoundaries.isValidRange (h.start i hi) (h.stop i hi) hg

theorem isSorted : IsSorted sense g.range.getCell (g.validBeginAt b i) (g.validEndAt b i) :=
  WindowBoundaries.isSorted (h.start i hi) (h.stop i hi) hg (h.isValidRange hg hi)

theorem mem_validRange (hnl : g.range.cellIsNull (call.rowIdx + i) = false) :
    g.validBeginAt b i ≤ call.rowIdx + i ∧ call.rowIdx + i < g.validEndAt b i :=
  ((h.isValidRange hg hi).valid_iff _ (h.start i hi).le (h.stop i hi).lt).1 hnl

/-- The last cell of a chunk is one of the same partition, or of a later one. -/
theorem lt_last (hnl : g.range.cellIsNull (call.rowIdx + i) = false) :
    call.rowIdx + i < g.validEndAt b (call.count - 1) := by
  have hlt : call.count - 1 < call.count := by omega
  have hlst := h.start _ hlt
  have hrow := h.mem_validRange hg hi hnl
  rcases Nat.lt_or_ge (call.rowIdx + i) (b .partitionBegin (call.count - 1)) with hbef | hle
  · have hvalid := h.isValidRange hg hlt
    exact hbef.trans_le (hvalid.begin_le.trans hvalid.le)
  · have hst : IsStartOf g.partitionMask.rowIsValid (call.rowIdx + i) (b .partitionBegin (call.count - 1)) :=
      ⟨hlst.marked, hle, fun k h₁ h₂ => hlst.inner k h₁ (by omega)⟩
    rw [← (h.same_partition hi hlt ((h.start i hi).unique hst)).2]
    exact hrow.2

end RangeColumns

/-- A boundary value on the permitted side is searched. -/
theorem findOrderedRangeBound_eq (hg : g.IsRangeGroup sense nulls) {orderBegin orderEnd : ℕ}
    {preceding : Bool} {val : V}
    (hside : outOfRange sense g.range.getCell orderBegin orderEnd preceding val = false)
    (fromStart : Bool) (prev : FrameBounds) :
    g.findOrderedRangeBound fromStart orderBegin orderEnd preceding val prev =
      .ok (searchRange sense fromStart g.range.getCell orderBegin orderEnd val prev) := by
  rw [findOrderedRangeBound, hg.orders, List.head?_cons]
  dsimp only
  rw [findTypedRangeBound, hside, if_neg Bool.false_ne_true]

/-! ## The cells of frames -/

section Cells

variable (boundary : WindowInputExpression V) (preceding : Bool) (orderBegin orderEnd : ℕ → ℕ)
  (hg : g.IsRangeGroup sense nulls) (hcols : g.RangeColumns call b)
  (hbegin : ∀ i < call.count, boundary.cellIsNull i = false →
    g.validBeginAt b i ≤ orderBegin i ∧ orderBegin i ≤ call.rowIdx + i)
  (hend : ∀ i < call.count, boundary.cellIsNull i = false →
    call.rowIdx + i < orderEnd i ∧ orderEnd i ≤ g.validEndAt b i)
  (hside : ∀ i < call.count, boundary.cellIsNull i = false →
    outOfRange sense g.range.getCell (orderBegin i) (orderEnd i) preceding (boundary.getCell i) = false)

include hg hcols hbegin hend hside

/-- The starts that are found among the rows that are searched are right: so are the hints. -/
theorem rangeBegin_cells (hvalid : ∀ i < call.count, b .validEnd i = g.validEndAt b i)
    (hmono : ∀ i j, i < j → j < call.count → boundary.cellIsNull i = false →
      boundary.cellIsNull j = false → b .partitionBegin i = b .partitionBegin j → orderBegin i ≤ orderBegin j)
    (hlst : ∀ i < call.count, boundary.cellIsNull i = false → ∀ f,
      IsLowerBound sense g.range.getCell (orderBegin i) (orderEnd i) (boundary.getCell i) f →
        f < g.validEndAt b i → f < orderEnd i) :
    ∃ prev vs, tryCells (g.rangeBeginCell boundary b preceding orderBegin orderEnd) call.count 0
        ⟨b .partitionBegin 0, b .validBegin 0⟩ = .ok (prev, vs) ∧ vs.length = call.count ∧
      ∀ k (h : k < vs.length), boundary.cellIsNull k = false →
        IsLowerBound sense g.range.getCell (orderBegin k) (orderEnd k) (boundary.getCell k) vs[k] := by
  -- a hint with the boundary value is the first row that has it
  obtain ⟨fine, hfine⟩ : ∃ fine : ℕ → ℕ → Prop, fine = fun i h => orderBegin i ≤ h → h < orderEnd i →
      g.range.getCell h = boundary.getCell i →
        IsLowerBound sense g.range.getCell (orderBegin i) (orderEnd i) (boundary.getCell i) h := ⟨_, rfl⟩
  have hfine_of_before : ∀ i < call.count, boundary.cellIsNull i = false → ∀ h,
      (∀ k, orderBegin i ≤ k → k < h → h < orderEnd i →
        comp sense (g.range.getCell k) (g.range.getCell h) = true) → fine i h := by
    intro i hi hnl h hbef
    have hsort := hcols.isSorted hg hi
    have hob := hbegin i hi hnl
    have hoe := hend i hi hnl
    rw [hfine]
    intro hle hlt hval
    refine ⟨hle, hlt.le, fun k h₁ h₂ => ?_, fun k h₁ h₂ => ?_⟩
    · rw [← hval]
      exact hbef k h₁ h₂ hlt
    · rw [← hval]
      exact hsort h k (by omega) h₁ (by omega)
  have hfst : ∀ i < call.count, boundary.cellIsNull i = false → fine i (g.validBeginAt b i) := by
    intro i hi hnl
    refine hfine_of_before i hi hnl _ fun k h₁ h₂ => ?_
    have hob := hbegin i hi hnl
    omega
  rw [rangeBeginCell_eq]
  refine hintedCells_spec _ fine ?_ ?_ ?_ ?_
  · intro i hi hnl h hhint
    have hob := hbegin i hi hnl
    have hoe := hend i hi hnl
    have hsort : IsSorted sense g.range.getCell (orderBegin i) (orderEnd i) := fun u v h₁ h₂ h₃ =>
      hcols.isSorted hg hi u v (hob.1.trans h₁) h₂ (h₃.trans_le hoe.2)
    obtain ⟨f, hf⟩ := IsLowerBound.exists_of_sorted hsort (by omega) (boundary.getCell i)
    refine ⟨_, findOrderedRangeBound_eq hg (hside i hi hnl) true _, ?_⟩
    rcases @searchRange_start_cases V _ _ _ _ _ _ _ ⟨h, b .validEnd i⟩ hf ((hvalid i hi).symm ▸ hoe.2)
      with heq | ⟨heq, hle, hlt, hval⟩
    · rwa [heq]
    · rw [heq]
      rw [hfine] at hhint
      exact hhint hle hlt hval
  · intro i hi hnl _
    rw [hcols.validBegin i hi]
    exact hfst i hi hnl
  · intro i j hij hj hnl hnl' hsm f hf
    have hi := hij.trans hj
    have hoe := hend j hj hnl'
    have hle := hmono i j hij hj hnl hnl' hsm
    have hstp := (hcols.same_partition hi hj hsm).2
    refine hfine_of_before j hj hnl' f fun k h₁ h₂ h₃ => ?_
    have hlt := hlst i hi hnl f hf (by omega)
    exact comp_of_comp_of_le (hf.before k (hle.trans h₁) h₂) (hf.after f le_rfl hlt)
  · intro i hi hnl _ hsm
    have hz : 0 < call.count := by omega
    rw [hcols.validBegin 0 hz, ← (hcols.same_partition hi hz hsm).1]
    exact hfst i hi hnl

/-- The ends that are found among the rows that are searched are right, if the hints are. -/
theorem rangeEnd_cells (reset : ℕ → ℕ) (init : PrevBound)
    (hlst : ∀ i < call.count, boundary.cellIsNull i = false → ∀ f,
      IsUpperBound sense g.range.getCell (orderBegin i) (orderEnd i) (boundary.getCell i) f →
        g.validBeginAt b i < f → f < g.validEndAt b i →
          comp sense (g.range.getCell (f - 1)) (g.range.getCell f) = true)
    (hreset : ∀ i < call.count, boundary.cellIsNull i = false → reset i ≤ g.validBeginAt b i ∨ orderEnd i ≤ reset i)
    (hinit : ∀ i < call.count, boundary.cellIsNull i = false →
      (∀ k < i, boundary.cellIsNull k = true) → b .partitionBegin i = init.partition →
        orderBegin i < init.bound → init.bound < orderEnd i → g.range.getCell (init.bound - 1) = boundary.getCell i →
            comp sense (g.range.getCell (init.bound - 1)) (g.range.getCell init.bound) = true) :
    ∃ prev vs, tryCells (g.rangeEndCell boundary b preceding orderBegin orderEnd reset) call.count 0 init =
        .ok (prev, vs) ∧ vs.length = call.count ∧
      ∀ k (h : k < vs.length), boundary.cellIsNull k = false →
        IsUpperBound sense g.range.getCell (orderBegin k) (orderEnd k) (boundary.getCell k) vs[k] := by
  -- a hint with the boundary value before it is the first row with another one
  obtain ⟨fine, hfine⟩ : ∃ fine : ℕ → ℕ → Prop, fine = fun i h => orderBegin i < h → h < orderEnd i →
      g.range.getCell (h - 1) = boundary.getCell i →
        IsUpperBound sense g.range.getCell (orderBegin i) (orderEnd i) (boundary.getCell i) h := ⟨_, rfl⟩
  have hfine_of_after : ∀ i < call.count, boundary.cellIsNull i = false → ∀ h,
      (orderBegin i < h → h < orderEnd i → g.range.getCell (h - 1) = boundary.getCell i →
        comp sense (g.range.getCell (h - 1)) (g.range.getCell h) = true) → fine i h := by
    intro i hi hnl h hafter
    have hsort := hcols.isSorted hg hi
    have hob := hbegin i hi hnl
    have hoe := hend i hi hnl
    rw [hfine]
    intro hlt hlt' hval
    have hnx := hafter hlt hlt' hval
    rw [hval] at hnx
    refine ⟨hlt.le, hlt'.le, fun k h₁ h₂ => ?_, fun k h₁ h₂ => ?_⟩
    · rw [← hval]
      exact hsort k (h - 1) (by omega) (by omega) (by omega)
    · exact comp_of_comp_of_le hnx (hsort h k (by omega) h₁ (by omega))
  rw [rangeEndCell_eq]
  refine hintedCells_spec _ fine ?_ ?_ ?_ ?_
  · intro i hi hnl h hhint
    have hob := hbegin i hi hnl
    have hoe := hend i hi hnl
    have hsort : IsSorted sense g.range.getCell (orderBegin i) (orderEnd i) := fun u v h₁ h₂ h₃ =>
      hcols.isSorted hg hi u v (hob.1.trans h₁) h₂ (h₃.trans_le hoe.2)
    obtain ⟨f, hf⟩ := IsUpperBound.exists_of_sorted hsort (by omega) (boundary.getCell i)
    refine ⟨_, findOrderedRangeBound_eq hg (hside i hi hnl) false _, ?_⟩
    rcases @searchRange_stop_cases V _ _ _ _ _ _ _ ⟨b .validBegin i, h⟩ hf with heq | ⟨heq, hlt, hlt', hval⟩
    · rwa [heq]
    · rw [heq]
      rw [hfine] at hhint
      exact hhint hlt hlt' hval
  · intro i hi hnl _
    have hob := hbegin i hi hnl
    refine hfine_of_after i hi hnl _ fun h₁ h₂ _ => ?_
    rcases hreset i hi hnl with hle | hle
    · exact absurd hle (by omega)
    · exact absurd hle (by omega)
  · intro i j hij hj hnl hnl' hsm f hf
    have hi := hij.trans hj
    have hob := hbegin j hj hnl'
    have hoe := hend j hj hnl'
    obtain ⟨hst, hstp⟩ := hcols.same_partition hi hj hsm
    exact hfine_of_after j hj hnl' f fun h₁ h₂ _ => hlst i hi hnl f hf (by omega) (by omega)
  · intro i hi hnl hno hsm
    exact hfine_of_after i hi hnl _ (hinit i hi hnl hno hsm)

end Cells

/-! ## Starts and ends -/

variable (g sense) in
/-- The first valid row of the partition whose value is not before the boundary value. -/
def IsFrameBegin (r : ℕ) (val : V) (f : ℕ) : Prop :=
  ∃ begin stop first last, IsStartOf g.partitionMask.rowIsValid r begin ∧
    IsEndOf g.partitionMask.rowIsValid g.inputSize r stop ∧ g.IsValidRange begin stop first last ∧
      IsLowerBound sense g.range.getCell first last val f

variable (g sense) in
/-- One past the last valid row of the partition whose value is not after the boundary value. -/
def IsFrameEnd (r : ℕ) (val : V) (f : ℕ) : Prop :=
  ∃ begin stop first last, IsStartOf g.partitionMask.rowIsValid r begin ∧
    IsEndOf g.partitionMask.rowIsValid g.inputSize r stop ∧ g.IsValidRange begin stop first last ∧
      IsUpperBound sense g.range.getCell first last val f

/-- A boundary value is not behind the value of the row if it precedes it, or before if it follows. -/
def OnPermittedSide (sense : OrderType) : WindowBoundary → V → V → Prop
  | .exprPrecedingRange, x, val => comp sense x val = false
  | .exprFollowingRange, x, val => comp sense val x = false
  | _, _, _ => True

variable (g sense) in
/-- The cells of a boundary are `NULL` where the ordering value is, and on the permitted side elsewhere. -/
structure IsRangeBoundary (call : BoundsCall V) (range : WindowBoundary)
    (boundary : WindowInputExpression V) : Prop where
  valid : ∀ i < call.count, boundary.cellIsNull i = false →
    g.range.cellIsNull (call.rowIdx + i) = false
  side : ∀ i < call.count, boundary.cellIsNull i = false →
    OnPermittedSide sense range (g.range.getCell (call.rowIdx + i)) (boundary.getCell i)

variable (g) in
/-- What is left over is taken for the end of the frame of a row: it is between peers, and follows the boundary value. -/
structure Misled (call : BoundsCall V) (stop i : ℕ) : Prop where
  same_partition : ∃ begin, IsStartOf g.partitionMask.rowIsValid call.rowIdx begin ∧
    IsStartOf g.partitionMask.rowIsValid (call.rowIdx + i) begin ∧ begin < stop
  le : stop ≤ call.rowIdx + i
  valid : g.range.cellIsNull (stop - 1) = false
  peers : g.orderMask.rowIsValid stop = false
  value : g.range.getCell (stop - 1) = call.boundaryEnd.getCell i

variable (g) in
/-- The end that is found for a row is not behind it, but what is left over if it follows the boundary value of the
    first row. -/
structure FoundUpTo (call : BoundsCall V) (b : BoundsColumns) (i v : ℕ) : Prop where
  le : v ≤ call.rowIdx + i + 1
  leftover : (∀ k < i, call.boundaryEnd.cellIsNull k = true) →
    b .partitionBegin i = b .partitionBegin 0 → b .validBegin i < b .validEnd 0 →
      b .validEnd 0 ≤ call.rowIdx + i →
        g.range.getCell (b .validEnd 0 - 1) = call.boundaryEnd.getCell i → v = b .validEnd 0

variable (g sense) in
/-- Rows are behind the boundary value, or the last of their peers, and the first of them is not misled. -/
structure EndsFound (call : BoundsCall V) (b : BoundsColumns) : Prop where
  peers : ∀ i < call.count, call.boundaryEnd.cellIsNull i = false →
    comp sense (call.boundaryEnd.getCell i) (g.range.getCell (call.rowIdx + i)) = true ∨
      call.rowIdx + i + 1 = g.inputSize ∨ g.orderMask.rowIsValid (call.rowIdx + i + 1) = true
  leftover : .validEnd ∉ g.required → ∀ i < call.count, call.boundaryEnd.cellIsNull i = false →
    (∀ k < i, call.boundaryEnd.cellIsNull k = true) → ¬g.Misled call (b .validEnd 0) i

/-- If the end of the valid rows is required, nothing is left over. -/
theorem EndsFound.congr {b' : BoundsColumns} (h : g.EndsFound sense call b)
    (hsm : .validEnd ∉ g.required → b .validEnd = b' .validEnd) : g.EndsFound sense call b' := by
  refine ⟨h.peers, fun hreq => ?_⟩
  rw [← hsm hreq]
  exact h.leftover hreq

section Frames

variable (hg : g.IsRangeGroup sense nulls) (hcols : g.RangeColumns call b)

include hg hcols

section

variable {i : ℕ} (hi : i < call.count) (hnl : g.range.cellIsNull (call.rowIdx + i) = false)

include hi hnl

/-- What holds of the valid rows of the partition of a row. -/
theorem validRange_iff
    {p : ℕ → ℕ → Prop} : (∃ begin stop first last, IsStartOf g.partitionMask.rowIsValid (call.rowIdx + i) begin ∧
      IsEndOf g.partitionMask.rowIsValid g.inputSize (call.rowIdx + i) stop ∧
        g.IsValidRange begin stop first last ∧ p first last) ↔ p (g.validBeginAt b i) (g.validEndAt b i) := by
  have hvalid := hcols.isValidRange hg hi
  constructor
  · rintro ⟨begin, stop, first, last, hbegin, hstp, hrng, hf⟩
    rw [hbegin.unique (hcols.start i hi), hstp.unique (hcols.stop i hi)] at hrng
    obtain ⟨hfst, hlst⟩ := hvalid.unique hrng (hcols.mem_validRange hg hi hnl)
    rwa [hfst, hlst]
  · intro hf
    exact ⟨_, _, _, _, hcols.start i hi, hcols.stop i hi, hvalid, hf⟩

theorem isFrameBegin_iff {val : V} {f : ℕ} :
    g.IsFrameBegin sense (call.rowIdx + i) val f ↔
      IsLowerBound sense g.range.getCell (g.validBeginAt b i) (g.validEndAt b i) val f :=
  validRange_iff hg hcols hi hnl

theorem isFrameEnd_iff {val : V} {f : ℕ} :
    g.IsFrameEnd sense (call.rowIdx + i) val f ↔
      IsUpperBound sense g.range.getCell (g.validBeginAt b i) (g.validEndAt b i) val f :=
  validRange_iff hg hcols hi hnl

end

omit hg hcols [LinearOrder V] in
/-- Cells are stored, and clamped to their partitions. -/
theorem storeFrame_ok {σ : Type} (s : σ) {vs : List ℕ} (hlen : vs.length = call.count)
    (b : BoundsColumns) (bound : BoundsColumn) (hbegin : .partitionBegin ≠ bound) (hend : .partitionEnd ≠ bound) :
    ∃ b', storeFrame call b bound (.ok (s, vs)) = .ok b' ∧ ∀ i (h : i < vs.length),
      b' bound i = min (max vs[i] (b .partitionBegin i)) (b .partitionEnd i) := by
  refine ⟨_, rfl, fun i hi => ?_⟩
  rw [BoundsColumns.clampFrame_of_lt (hlen ▸ hi), BoundsColumns.store_self, storeCells_of_lt hi,
    BoundsColumns.store_of_ne hbegin, BoundsColumns.store_of_ne hend]

/-- A bound among the valid rows is not changed when it is clamped. -/
theorem clamp_eq {i f : ℕ} (hi : i < call.count) (hf : g.validBeginAt b i ≤ f) (hf' : f ≤ g.validEndAt b i) :
    min (max f (b .partitionBegin i)) (b .partitionEnd i) = f := by
  have hvalid := hcols.isValidRange hg hi
  rw [max_eq_left (hvalid.begin_le.trans hf), min_eq_left (hf'.trans hvalid.le_stop)]

section

variable (hvalid : ∀ i < call.count, b .validEnd i = g.validEndAt b i)

include hvalid

theorem frameBegin_preceding (hst : g.wexpr.start = .exprPrecedingRange)
    (hb : g.IsRangeBoundary sense call .exprPrecedingRange call.boundaryStart) :
    ∃ b', g.frameBegin call b = .ok b' ∧ ∀ i < call.count, call.boundaryStart.cellIsNull i = false →
      g.IsFrameBegin sense (call.rowIdx + i) (call.boundaryStart.getCell i) (b' .frameBegin i) := by
  have hrow := fun i hi hnl => hcols.mem_validRange hg hi (hb.valid i hi hnl)
  have hmono : ∀ i j, i < j → j < call.count → call.boundaryStart.cellIsNull i = false →
      call.boundaryStart.cellIsNull j = false → b .partitionBegin i = b .partitionBegin j →
        b .validBegin i ≤ b .validBegin j := by
    intro i j hij hj _ _ hsm
    have hi := hij.trans hj
    rw [hcols.validBegin i hi, hcols.validBegin j hj, (hcols.same_partition hi hj hsm).1]
  -- the row itself is not before the boundary value
  have hlst : ∀ i < call.count, call.boundaryStart.cellIsNull i = false → ∀ f,
      IsLowerBound sense g.range.getCell (b .validBegin i) (call.rowIdx + i + 1)
        (call.boundaryStart.getCell i) f → f < g.validEndAt b i → f < call.rowIdx + i + 1 := by
    intro i hi hnl f hf _
    refine lt_of_le_of_ne hf.le_last ?_
    rintro rfl
    have hbef := hf.before (call.rowIdx + i)
      ((hcols.validBegin i hi).le.trans (hrow i hi hnl).1) (lt_succ_self _)
    exact Bool.false_ne_true ((hb.side i hi hnl).symm.trans hbef)
  obtain ⟨prev, vs, hrun, hlen, hall⟩ := rangeBegin_cells call.boundaryStart true (b .validBegin)
    (call.rowIdx + · + 1) hg hcols
    (fun i hi hnl => ⟨(hcols.validBegin i hi).ge, (hcols.validBegin i hi).le.trans (hrow i hi hnl).1⟩)
    (fun i hi hnl => ⟨lt_succ_self _, (hrow i hi hnl).2⟩)
    (fun i hi hnl => hb.side i hi hnl) hvalid hmono hlst
  obtain ⟨b', hb', hcell⟩ := storeFrame_ok prev hlen b .frameBegin (by decide) (by decide)
  refine ⟨b', ?_, fun i hi hnl => ?_⟩
  · rw [frameBegin, hst]
    rw [hrun]
    exact hb'
  · have hlt : i < vs.length := hlen.symm ▸ hi
    have hf := hall i hlt hnl
    rw [hcols.validBegin i hi] at hf
    have hrt := hf.of_preceding (hcols.isSorted hg hi) (hrow i hi hnl).1 (hrow i hi hnl).2
      (hb.side i hi hnl)
    rw [isFrameBegin_iff hg hcols hi (hb.valid i hi hnl), hcell i hlt, clamp_eq hg hcols hi hrt.first_le hrt.le_last]
    exact hrt

/-- The start of frames that follow a row is right if the row is before it, or the first of its peers. -/
theorem frameBegin_following (hst : g.wexpr.start = .exprFollowingRange)
    (hb : g.IsRangeBoundary sense call .exprFollowingRange call.boundaryStart) :
    ∃ b', g.frameBegin call b = .ok b' ∧ ∀ i < call.count, call.boundaryStart.cellIsNull i = false →
      (g.IsFrameBegin sense (call.rowIdx + i) (call.boundaryStart.getCell i) (b' .frameBegin i) ↔
        comp sense (g.range.getCell (call.rowIdx + i)) (call.boundaryStart.getCell i) = true ∨
          g.orderMask.rowIsValid (call.rowIdx + i) = true) := by
  have hrow := fun i hi hnl => hcols.mem_validRange hg hi (hb.valid i hi hnl)
  obtain ⟨prev, vs, hrun, hlen, hall⟩ := rangeBegin_cells call.boundaryStart false (call.rowIdx + ·)
    (b .validEnd) hg hcols (fun i hi hnl => ⟨(hrow i hi hnl).1, le_rfl⟩)
    (fun i hi hnl => ⟨(hrow i hi hnl).2.trans_le (hvalid i hi).ge, (hvalid i hi).le⟩)
    (fun i hi hnl => hb.side i hi hnl) hvalid
    (fun i j hij _ _ _ _ => Nat.add_le_add_left hij.le _)
    (fun i hi _ f _ hf => hf.trans_le (hvalid i hi).ge)
  obtain ⟨b', hb', hcell⟩ := storeFrame_ok prev hlen b .frameBegin (by decide) (by decide)
  refine ⟨b', ?_, fun i hi hnl => ?_⟩
  · rw [frameBegin, hst]
    rw [hrun]
    exact hb'
  · have hlt : i < vs.length := hlen.symm ▸ hi
    have hf := hall i hlt hnl
    rw [hvalid i hi] at hf
    obtain ⟨hfst, hlst⟩ := hrow i hi hnl
    rw [isFrameBegin_iff hg hcols hi (hb.valid i hi hnl), hcell i hlt,
      clamp_eq hg hcols hi (hfst.trans hf.first_le) hf.le_last,
      hf.of_following_iff (hcols.isSorted hg hi) hfst hlst (hb.side i hi hnl),
      first_iff (hcols.start i hi) (hcols.stop i hi) hg (hcols.isValidRange hg hi) hfst hlst]

theorem frameEnd_following {s : WindowBoundariesState} (hstp : g.wexpr.stop = .exprFollowingRange)
    (hb : g.IsRangeBoundary sense call .exprFollowingRange call.boundaryEnd) :
    ∃ b', g.frameEnd call s b = .ok b' ∧ ∀ i < call.count, call.boundaryEnd.cellIsNull i = false →
      g.IsFrameEnd sense (call.rowIdx + i) (call.boundaryEnd.getCell i) (b' .frameEnd i) := by
  have hrow := fun i hi hnl => hcols.mem_validRange hg hi (hb.valid i hi hnl)
  -- the row itself is not after the boundary value
  have hlst : ∀ i < call.count, call.boundaryEnd.cellIsNull i = false → ∀ f,
      IsUpperBound sense g.range.getCell (call.rowIdx + i) (b .validEnd i)
        (call.boundaryEnd.getCell i) f → g.validBeginAt b i < f → f < g.validEndAt b i →
          comp sense (g.range.getCell (f - 1)) (g.range.getCell f) = true := by
    intro i hi hnl f hf _ hlt
    have hside : comp sense (call.boundaryEnd.getCell i) (g.range.getCell (call.rowIdx + i)) = false :=
      hb.side i hi hnl
    have hstp := (hvalid i hi).ge
    have hpos : call.rowIdx + i < f := by
      by_contra hle
      have hafter := hf.after (call.rowIdx + i) (not_lt.1 hle) ((hrow i hi hnl).2.trans_le hstp)
      exact Bool.false_ne_true (hside.symm.trans hafter)
    exact comp_of_le_of_comp (hf.before (f - 1) (by omega) (by omega))
      (hf.after f le_rfl (hlt.trans_le hstp))
  have hinit : ∀ i < call.count, call.boundaryEnd.cellIsNull i = false →
      (∀ k < i, call.boundaryEnd.cellIsNull k = true) → b .partitionBegin i = b .partitionBegin 0 →
        call.rowIdx + i < b .validEnd 0 → b .validEnd 0 < b .validEnd i →
          g.range.getCell (b .validEnd 0 - 1) = call.boundaryEnd.getCell i →
            comp sense (g.range.getCell (b .validEnd 0 - 1)) (g.range.getCell (b .validEnd 0)) = true := by
    intro i hi _ _ hsm _ hlt _
    have hz : 0 < call.count := by omega
    rw [hvalid i hi, hvalid 0 hz, (hcols.same_partition hi hz hsm).2] at hlt
    exact absurd hlt (lt_irrefl _)
  obtain ⟨prev, vs, hrun, hlen, hall⟩ := rangeEnd_cells call.boundaryEnd false (call.rowIdx + ·)
    (b .validEnd) hg hcols (fun i hi hnl => ⟨(hrow i hi hnl).1, le_rfl⟩)
    (fun i hi hnl => ⟨(hrow i hi hnl).2.trans_le (hvalid i hi).ge, (hvalid i hi).le⟩)
    (fun i hi hnl => hb.side i hi hnl) (b .validEnd) ⟨b .partitionBegin 0, b .validEnd 0⟩ hlst
    (fun i _ _ => .inr le_rfl) hinit
  obtain ⟨b', hb', hcell⟩ := storeFrame_ok prev hlen b .frameEnd (by decide) (by decide)
  refine ⟨b', ?_, fun i hi hnl => ?_⟩
  · rw [frameEnd, hstp]
    rw [hrun]
    exact hb'
  · have hlt : i < vs.length := hlen.symm ▸ hi
    have hf := hall i hlt hnl
    rw [hvalid i hi] at hf
    have hrt := hf.of_following (hcols.isSorted hg hi) (hrow i hi hnl).1 (hrow i hi hnl).2
      (hb.side i hi hnl)
    rw [isFrameEnd_iff hg hcols hi (hb.valid i hi hnl), hcell i hlt, clamp_eq hg hcols hi hrt.first_le hrt.le_last]
    exact hrt

end

/-! ## Ends that precede a row -/

section Preceding

variable {s : WindowBoundariesState}
  (hvalid : .validEnd ∈ g.required → ∀ i < call.count, b .validEnd i = g.validEndAt b i)
  (hb : g.IsRangeBoundary sense call .exprPrecedingRange call.boundaryEnd)

include hb

/-- Ends are found up to the row, whatever the hints are. -/
theorem rangeEnd_cells_le : ∃ prev vs,
    tryCells (g.rangeEndCell call.boundaryEnd b true (b .validBegin) (call.rowIdx + · + 1)
      fun _ => s.validEnd) call.count 0 ⟨b .partitionBegin 0, b .validEnd 0⟩ = .ok (prev, vs) ∧
      vs.length = call.count ∧ ∀ k (h : k < vs.length), call.boundaryEnd.cellIsNull k = false →
        g.FoundUpTo call b k vs[k] := by
  rw [rangeEndCell_eq]
  refine hintedCells_spec (g.FoundUpTo call b) (fun i h => (∀ j < i, call.boundaryEnd.cellIsNull j = true) →
    b .partitionBegin i = b .partitionBegin 0 → h = b .validEnd 0) ?_ ?_ ?_ ?_
  · intro i hi hnl h hhint
    obtain ⟨hfst, hlst⟩ := hcols.mem_validRange hg hi (hb.valid i hi hnl)
    have hsort : IsSorted sense g.range.getCell (b .validBegin i) (call.rowIdx + i + 1) := by
      rw [hcols.validBegin i hi]
      exact fun u v h₁ h₂ h₃ => hcols.isSorted hg hi u v h₁ h₂ (h₃.trans_le hlst)
    rw [← hcols.validBegin i hi] at hfst
    obtain ⟨f, hf⟩ := IsUpperBound.exists_of_sorted hsort (hfst.trans (le_succ _))
      (call.boundaryEnd.getCell i)
    have hside : outOfRange sense g.range.getCell (b .validBegin i) (call.rowIdx + i + 1) true
        (call.boundaryEnd.getCell i) = false := hb.side i hi hnl
    refine ⟨_, findOrderedRangeBound_eq hg hside false _, ?_, fun hno hsm h₁ h₂ h₃ => ?_⟩
    · rcases @searchRange_stop_cases V _ _ _ _ _ _ _ ⟨b .validBegin i, h⟩ hf with heq | ⟨heq, -, hlt, -⟩
      · exact heq.trans_le hf.le_last
      · exact heq.trans_le hlt.le
    · obtain rfl := hhint hno hsm
      exact @searchRange_stop_eq V _ _ _ _ _ _ ⟨b .validBegin i, b .validEnd 0⟩ h₁ h₁ (lt_succ_of_le h₂) h₃
  · intro i hi hnl hnew hno hsm
    rcases hnew with hne | ⟨k, hk, hnl'⟩
    · exact absurd hsm hne
    · exact absurd (hnl'.symm.trans (hno k hk)) Bool.false_ne_true
  · intro i j hij _ hnl _ _ v _ hno
    exact absurd (hnl.symm.trans (hno i hij)) Bool.false_ne_true
  · intro i _ _ _ _ _ _
    rfl

include hvalid

/-- The ends are right for rows behind the boundary value, or last of their peers, if the first row is not misled. -/
theorem rangeEnd_cells_of_found (hs : .validEnd ∈ g.required → s.validEnd = g.validEndAt b (call.count - 1))
    (hs' : .validEnd ∉ g.required → s.validEnd = 0) (hfnd : g.EndsFound sense call b) : ∃ prev vs,
    tryCells (g.rangeEndCell call.boundaryEnd b true (b .validBegin) (call.rowIdx + · + 1)
      fun _ => s.validEnd) call.count 0 ⟨b .partitionBegin 0, b .validEnd 0⟩ = .ok (prev, vs) ∧
      vs.length = call.count ∧ ∀ k (h : k < vs.length), call.boundaryEnd.cellIsNull k = false →
        IsUpperBound sense g.range.getCell (b .validBegin k) (call.rowIdx + k + 1)
          (call.boundaryEnd.getCell k) vs[k] := by
  have hrow : ∀ i < call.count, call.boundaryEnd.cellIsNull i = false →
      b .validBegin i ≤ call.rowIdx + i ∧ call.rowIdx + i < g.validEndAt b i := by
    intro i hi hnl
    rw [hcols.validBegin i hi]
    exact hcols.mem_validRange hg hi (hb.valid i hi hnl)
  have hlst : ∀ i < call.count, call.boundaryEnd.cellIsNull i = false → ∀ f,
      IsUpperBound sense g.range.getCell (b .validBegin i) (call.rowIdx + i + 1)
        (call.boundaryEnd.getCell i) f → g.validBeginAt b i < f → f < g.validEndAt b i →
          comp sense (g.range.getCell (f - 1)) (g.range.getCell f) = true := by
    intro i hi hnl f hf h₁ h₂
    have hbef := hf.before (f - 1) ((hcols.validBegin i hi).le.trans (le_sub_one_of_lt h₁)) (by omega)
    rcases hf.le_last.eq_or_lt with rfl | hlt
    · -- the row itself is the last one that is searched
      obtain ⟨h₃, h₄⟩ := hrow i hi hnl
      rw [hcols.validBegin i hi] at h₃
      have hprs := (hfnd.peers i hi hnl).resolve_left (Bool.eq_false_iff.1 hbef)
      exact (last_iff (hcols.start i hi) (hcols.stop i hi) hg (hcols.isValidRange hg hi) h₃ h₄).1 hprs _
        (lt_succ_self _) h₂
    · exact comp_of_le_of_comp hbef (hf.after f le_rfl hlt)
  have hreset : ∀ i < call.count, call.boundaryEnd.cellIsNull i = false →
      s.validEnd ≤ g.validBeginAt b i ∨ call.rowIdx + i + 1 ≤ s.validEnd := by
    intro i hi hnl
    by_cases hreq : .validEnd ∈ g.required
    · rw [hs hreq]
      exact .inr (hcols.lt_last hg hi (hb.valid i hi hnl))
    · rw [hs' hreq]
      exact .inl (Nat.zero_le _)
  have hinit : ∀ i < call.count, call.boundaryEnd.cellIsNull i = false →
      (∀ k < i, call.boundaryEnd.cellIsNull k = true) → b .partitionBegin i = b .partitionBegin 0 →
        b .validBegin i < b .validEnd 0 → b .validEnd 0 < call.rowIdx + i + 1 →
          g.range.getCell (b .validEnd 0 - 1) = call.boundaryEnd.getCell i →
            comp sense (g.range.getCell (b .validEnd 0 - 1)) (g.range.getCell (b .validEnd 0)) = true := by
    intro i hi hnl hno hsm h₁ h₂ hval
    have hz : 0 < call.count := by omega
    obtain ⟨h₃, h₄⟩ := hrow i hi hnl
    have hvrng := hcols.isValidRange hg hi
    by_cases hreq : .validEnd ∈ g.required
    · have heq := (hvalid hreq 0 hz).trans (hcols.same_partition hi hz hsm).2.symm
      exact absurd h₂ (by omega)
    · -- the row is not misled, so that there are no peers
      rw [hcols.validBegin i hi] at h₁
      have hle := hvrng.begin_le
      have hstp := hvrng.le_stop
      have hmark : g.orderMask.rowIsValid (b .validEnd 0) = true := by
        by_contra hmark
        refine hfnd.leftover hreq i hi hnl hno ⟨⟨b .partitionBegin i, ?_, hcols.start i hi, by omega⟩,
          le_of_lt_succ h₂, ?_, Bool.eq_false_iff.2 hmark, hval⟩
        · rw [hsm]
          exact hcols.start 0 hz
        · exact (hvrng.valid_iff _ (by omega) (by omega)).2 ⟨by omega, by omega⟩
      exact (first_iff (hcols.start i hi) (hcols.stop i hi) hg hvrng h₁.le (by omega)).1 hmark _
        (by omega) (by omega)
  exact rangeEnd_cells call.boundaryEnd true (b .validBegin) (call.rowIdx + · + 1) hg hcols
    (fun i hi hnl => ⟨(hcols.validBegin i hi).ge, (hrow i hi hnl).1⟩)
    (fun i hi hnl => ⟨lt_succ_self _, (hrow i hi hnl).2⟩) (fun i hi hnl => hb.side i hi hnl)
    (fun _ => s.validEnd) _ hlst hreset hinit

/-- The ends of frames are right exactly for rows behind the boundary value, or last of their peers, if the first row
    is not misled. -/
theorem frameEnd_preceding (hs : .validEnd ∈ g.required → s.validEnd = g.validEndAt b (call.count - 1))
    (hs' : .validEnd ∉ g.required → s.validEnd = 0) (hstp : g.wexpr.stop = .exprPrecedingRange) :
    ∃ b', g.frameEnd call s b = .ok b' ∧ ((∀ i < call.count, call.boundaryEnd.cellIsNull i = false →
        g.IsFrameEnd sense (call.rowIdx + i) (call.boundaryEnd.getCell i) (b' .frameEnd i)) ↔
          g.EndsFound sense call b) := by
  obtain ⟨prev, vs, hrun, hlen, hle⟩ := @rangeEnd_cells_le V _ g call b sense nulls hg hcols s hb
  obtain ⟨b', hb', hcell⟩ := storeFrame_ok prev hlen b .frameEnd (by decide) (by decide)
  refine ⟨b', ?_, fun hrt => ⟨fun i hi hnl => ?_, fun hreq i hi hnl hno hmisled => ?_⟩, fun hfnd => ?_⟩
  · rw [frameEnd, hstp]
    rw [hrun]
    exact hb'
  · have hlt : i < vs.length := hlen.symm ▸ hi
    obtain ⟨hfst, hlst⟩ := hcols.mem_validRange hg hi (hb.valid i hi hnl)
    have hf := hrt i hi hnl
    rw [isFrameEnd_iff hg hcols hi (hb.valid i hi hnl), hcell i hlt] at hf
    have hupTo : min (max vs[i] (b .partitionBegin i)) (b .partitionEnd i) ≤ call.rowIdx + i + 1 :=
      (min_le_left _ _).trans (max_le (hle i hlt hnl).le ((hcols.start i hi).le.trans (le_succ _)))
    refine (hf.peers_of_le hfst hlst (hb.side i hi hnl) hupTo).imp_right fun hprs => ?_
    exact (last_iff (hcols.start i hi) (hcols.stop i hi) hg (hcols.isValidRange hg hi) hfst hlst).2 hprs
  · have hlt : i < vs.length := hlen.symm ▸ hi
    have hz : 0 < call.count := by omega
    have hvrng := hcols.isValidRange hg hi
    obtain ⟨hfst, hlst⟩ := hcols.mem_validRange hg hi (hb.valid i hi hnl)
    obtain ⟨⟨begin, hbegin, hbeg', hpos⟩, hupTo, hnl', hprs, hval⟩ := hmisled
    have hsm : b .partitionBegin i = b .partitionBegin 0 :=
      ((hcols.start i hi).unique hbeg').trans (hbegin.unique (hcols.start 0 hz))
    rw [hbeg'.unique (hcols.start i hi)] at hpos
    have hstp := hvrng.le_stop
    have hmem := (hvrng.valid_iff (b .validEnd 0 - 1) (by omega) (by omega)).1 hnl'
    have hfnd : vs[i] = b .validEnd 0 := by
      refine (hle i hlt hnl).leftover hno hsm ?_ hupTo hval
      rw [hcols.validBegin i hi]
      omega
    have hf := hrt i hi hnl
    rw [isFrameEnd_iff hg hcols hi (hb.valid i hi hnl), hcell i hlt, hfnd,
      clamp_eq hg hcols hi (by omega) (by omega)] at hf
    have hafter := hf.after _ le_rfl (hupTo.trans_lt hlst)
    -- the row behind the end has the boundary value, too
    obtain ⟨k, hk⟩ : ∃ k, b .validEnd 0 = k + 1 := ⟨b .validEnd 0 - 1, by omega⟩
    rw [hk] at hprs hnl' hval hafter hupTo hpos
    rw [Nat.add_sub_cancel] at hnl' hval
    have hsz := (hcols.stop i hi).le
    have heql := (hg.order_iff k (by omega) (partition_inner (hcols.start i hi) (hcols.stop i hi) hpos
      (by omega))).1 hprs
    rw [← heql.2 hnl', hval, comp_self] at hafter
    exact Bool.false_ne_true hafter
  · intro i hi hnl
    obtain ⟨prev', vs', hrun', -, hall⟩ := rangeEnd_cells_of_found hg hcols hvalid hb hs hs' hfnd
    obtain ⟨rfl, rfl⟩ := Prod.ext_iff.1 (Except.ok.inj (hrun.symm.trans hrun'))
    have hlt : i < vs.length := hlen.symm ▸ hi
    obtain ⟨hfst, hlst⟩ := hcols.mem_validRange hg hi (hb.valid i hi hnl)
    have hf := hall i hlt hnl
    rw [hcols.validBegin i hi] at hf
    have hrt := hf.of_preceding (hcols.isSorted hg hi) hfst hlst (hb.side i hi hnl)
      ((hfnd.peers i hi hnl).imp_right (last_iff (hcols.start i hi) (hcols.stop i hi) hg
        (hcols.isValidRange hg hi) hfst hlst).1)
    rw [isFrameEnd_iff hg hcols hi (hb.valid i hi hnl), hcell i hlt, clamp_eq hg hcols hi hrt.first_le hrt.le_last]
    exact hrt

end Preceding

end Frames

/-! ## Frames of a chunk -/

/-- A boundary that is searched among the ordering values. -/
def IsExprRange (w : WindowBoundary) : Prop := w = .exprPrecedingRange ∨ w = .exprFollowingRange

/-- The frames are those of a range. -/
structure IsRangeFrame (w : BoundWindowExpression) : Prop where
  start : w.start = .unboundedPreceding ∨ w.start = .currentRowRange ∨ IsExprRange w.start
  stop : w.stop = .unboundedFollowing ∨ w.stop = .currentRowRange ∨ IsExprRange w.stop

variable (g sense) in
/-- The frames of a chunk start and end where they should. -/
structure FramesRight (call : BoundsCall V) (b : BoundsColumns) : Prop where
  start : IsExprRange g.wexpr.start → ∀ i < call.count, call.boundaryStart.cellIsNull i = false →
    g.IsFrameBegin sense (call.rowIdx + i) (call.boundaryStart.getCell i) (b .frameBegin i)
  stop : IsExprRange g.wexpr.stop → ∀ i < call.count, call.boundaryEnd.cellIsNull i = false →
    g.IsFrameEnd sense (call.rowIdx + i) (call.boundaryEnd.getCell i) (b .frameEnd i)

variable (g sense) in
/-- The frames of a chunk are among the rows that are searched. -/
structure FramesFound (call : BoundsCall V) (b : BoundsColumns) : Prop where
  start : g.wexpr.start = .exprFollowingRange → ∀ i < call.count,
    call.boundaryStart.cellIsNull i = false →
      comp sense (g.range.getCell (call.rowIdx + i)) (call.boundaryStart.getCell i) = true ∨
        g.orderMask.rowIsValid (call.rowIdx + i) = true
  stop : g.wexpr.stop = .exprPrecedingRange → g.EndsFound sense call b

variable {s : WindowBoundariesState}

/-- The starts of range frames are right exactly if they are among the rows that are searched. -/
theorem frameBegin_range (hg : g.IsRangeGroup sense nulls) (hfrm : IsRangeFrame g.wexpr)
    (hcols : IsExprRange g.wexpr.start → g.RangeColumns call b ∧ ∀ i < call.count, b .validEnd i = g.validEndAt b i)
    (hb : IsExprRange g.wexpr.start → g.IsRangeBoundary sense call g.wexpr.start call.boundaryStart) :
    ∃ b', g.frameBegin call b = .ok b' ∧
      ((IsExprRange g.wexpr.start → ∀ i < call.count, call.boundaryStart.cellIsNull i = false →
        g.IsFrameBegin sense (call.rowIdx + i) (call.boundaryStart.getCell i) (b' .frameBegin i)) ↔
      (g.wexpr.start = .exprFollowingRange → ∀ i < call.count, call.boundaryStart.cellIsNull i = false →
          comp sense (g.range.getCell (call.rowIdx + i)) (call.boundaryStart.getCell i) = true ∨
            g.orderMask.rowIsValid (call.rowIdx + i) = true)) := by
  rcases hfrm.start with hst | hst | hst | hst
  iterate 2
    · rw [frameBegin, hst]
      exact ⟨_, rfl, iff_of_true (fun h => absurd h (by rintro (h | h) <;> cases h)) fun h => by cases h⟩
  · have hrng : IsExprRange g.wexpr.start := .inl hst
    obtain ⟨hcols, hvalid⟩ := hcols hrng
    obtain ⟨b', hb', hrt⟩ := frameBegin_preceding hg hcols hvalid hst (hst ▸ hb hrng)
    refine ⟨b', hb', iff_of_true (fun _ => hrt) fun h => ?_⟩
    rw [hst] at h
    cases h
  · have hrng : IsExprRange g.wexpr.start := .inr hst
    obtain ⟨hcols, hvalid⟩ := hcols hrng
    obtain ⟨b', hb', hrt⟩ := frameBegin_following hg hcols hvalid hst (hst ▸ hb hrng)
    refine ⟨b', hb', fun h _ i hi hnl => (hrt i hi hnl).1 (h hrng i hi hnl),
      fun h _ i hi hnl => (hrt i hi hnl).2 (h hst i hi hnl)⟩

theorem frameEnd_range (hg : g.IsRangeGroup sense nulls) (hfrm : IsRangeFrame g.wexpr)
    (hcols : IsExprRange g.wexpr.stop → g.RangeColumns call b ∧
      (.validEnd ∈ g.required → ∀ i < call.count, b .validEnd i = g.validEndAt b i))
    (hreq : g.wexpr.stop = .exprFollowingRange → .validEnd ∈ g.required)
    (hs : .validEnd ∈ g.required → s.validEnd = g.validEndAt b (call.count - 1))
    (hs' : .validEnd ∉ g.required → s.validEnd = 0)
    (hb : IsExprRange g.wexpr.stop → g.IsRangeBoundary sense call g.wexpr.stop call.boundaryEnd) :
    ∃ b', g.frameEnd call s b = .ok b' ∧
      ((IsExprRange g.wexpr.stop → ∀ i < call.count, call.boundaryEnd.cellIsNull i = false →
        g.IsFrameEnd sense (call.rowIdx + i) (call.boundaryEnd.getCell i) (b' .frameEnd i)) ↔
      (g.wexpr.stop = .exprPrecedingRange → g.EndsFound sense call b)) := by
  rcases hfrm.stop with hstp | hstp | hstp | hstp
  iterate 2
    · rw [frameEnd, hstp]
      exact ⟨_, rfl, iff_of_true (fun h => absurd h (by rintro (h | h) <;> cases h)) fun h => by cases h⟩
  · have hrng : IsExprRange g.wexpr.stop := .inl hstp
    obtain ⟨hcols, hvalid⟩ := hcols hrng
    obtain ⟨b', hb', hrt⟩ := frameEnd_preceding hg hcols hvalid (hstp ▸ hb hrng) hs hs' hstp
    exact ⟨b', hb', fun h _ => hrt.1 (h hrng), fun h _ => hrt.2 (h hstp)⟩
  · have hrng : IsExprRange g.wexpr.stop := .inr hstp
    obtain ⟨hcols, hvalid⟩ := hcols hrng
    obtain ⟨b', hb', hrt⟩ := frameEnd_following hg hcols (hvalid (hreq hstp)) hstp (hstp ▸ hb hrng)
    refine ⟨b', hb', iff_of_true (fun _ => hrt) fun h => ?_⟩
    rw [hstp] at h
    cases h

/-- Whatever is left over, the frames of ranges are right exactly if they are among the rows that are searched. -/
theorem rangeFrames_iff (hg : g.IsRangeGroup sense nulls) (hs : g.Reaches s) (hcall : g.InGroup call)
    (hreq : .frameBegin ∈ g.required ∧ .frameEnd ∈ g.required) (hframe : IsRangeFrame g.wexpr)
    (hstart : IsExprRange g.wexpr.start → g.IsRangeBoundary sense call g.wexpr.start call.boundaryStart)
    (hend : IsExprRange g.wexpr.stop → g.IsRangeBoundary sense call g.wexpr.stop call.boundaryEnd)
    (b : BoundsColumns) :
    ∃ s' b', g.bounds call s b = .ok (s', b') ∧ (g.FramesRight sense call b' ↔ g.FramesFound sense call b) := by
  obtain ⟨hcarr, hz⟩ := validCarried_of_reaches hg.toIsGroup hs
  obtain ⟨-, -, hrs⟩ := rowBounds_spec hg.toIsGroup hcall (fun r hr => (hcarr r hr).1) b
  obtain ⟨hlst, hvalids, hkept⟩ := rowBounds_valid hg.toIsGroup hcall hcarr b
  obtain ⟨hbeginReq, hendReq⟩ := required_partition (.inl hreq.1)
  obtain ⟨s₁, hs₁⟩ : ∃ s₁, s₁ = (g.rowBounds call s b).1 := ⟨_, rfl⟩
  obtain ⟨b₀, hb₀⟩ : ∃ b₀, b₀ = (g.rowBounds call s b).2 := ⟨_, rfl⟩
  rw [← hs₁] at hlst hkept
  rw [← hb₀] at hrs hvalids hkept
  have hbegin := hrs.partitionBegin hbeginReq
  have hstp := hrs.partitionEnd hendReq
  -- the columns before the frames are computed
  have hcols : .validBegin ∈ g.required → g.RangeColumns call b₀ := fun hvalid =>
    ⟨hbegin, hstp, fun i hi => hvalids.validBegin hvalid i hi _ _ (hbegin i hi) (hstp i hi)⟩
  have hvalidEnd : .validEnd ∈ g.required → ∀ i < call.count, b₀ .validEnd i = g.validEndAt b₀ i :=
    fun hvalid i hi => hvalids.validEnd hvalid i hi _ _ (hbegin i hi) (hstp i hi)
  have hlastEnd : .validEnd ∈ g.required → s₁.validEnd = g.validEndAt b₀ (call.count - 1) := by
    intro hvalid
    have hlt : call.count - 1 < call.count := sub_lt hcall.pos Nat.one_pos
    have hcar := hlst.validEnd hvalid
    rw [Nat.add_sub_assoc hcall.pos] at hcar
    exact hcar _ _ (hbegin _ hlt) (hstp _ hlt)
  obtain ⟨b₁, hb₁, hrt₁⟩ := frameBegin_range hg hframe (fun hrng =>
    ⟨hcols (validBegin_mem_of_start (w := g.wexpr) hreq.1 hrng).1,
      hvalidEnd (validBegin_mem_of_start (w := g.wexpr) hreq.1 hrng).2⟩) hstart
  obtain ⟨-, hsm⟩ := frameBegin_of_ne hb₁
  have hspart : b₁ .partitionBegin = b₀ .partitionBegin ∧ b₁ .partitionEnd = b₀ .partitionEnd :=
    ⟨hsm _ (by decide) (by decide), hsm _ (by decide) (by decide)⟩
  have hsameValid : b₁ .validBegin = b₀ .validBegin ∧ b₁ .validEnd = b₀ .validEnd :=
    ⟨hsm _ (by decide) (by decide), hsm _ (by decide) (by decide)⟩
  have hbeginAt : ∀ i, g.validBeginAt b₁ i = g.validBeginAt b₀ i := fun i => by
    rw [validBeginAt, validBeginAt, hspart.1, hspart.2]
  have hendAt : ∀ i, g.validEndAt b₁ i = g.validEndAt b₀ i := fun i => by
    rw [validEndAt, validEndAt, hbeginAt, hspart.2]
  have hcols₁ : .validBegin ∈ g.required → g.RangeColumns call b₁ := by
    intro hvalid
    obtain ⟨h₁, h₂, h₃⟩ := hcols hvalid
    refine ⟨?_, ?_, fun i hi => ?_⟩
    · rwa [hspart.1]
    · rwa [hspart.2]
    · rw [hsameValid.1, hbeginAt]
      exact h₃ i hi
  have hvalidBegin : IsExprRange g.wexpr.stop → .validBegin ∈ g.required := by
    intro hrng
    refine required_endBounds hreq.2 ?_
    rcases hrng with h | h <;> rw [h] <;> decide
  have hvalidEndReq : g.wexpr.stop = .exprFollowingRange → .validEnd ∈ g.required := by
    intro h
    refine required_endBounds hreq.2 ?_
    rw [h]
    decide
  obtain ⟨b₂, hb₂, hrt₂⟩ := @frameEnd_range V _ g call b₁ sense nulls s₁ hg hframe (fun hrng =>
    ⟨hcols₁ (hvalidBegin hrng), fun hvalid i hi => by
      rw [hsameValid.2, hendAt]
      exact hvalidEnd hvalid i hi⟩) hvalidEndReq
    (fun hvalid => by rw [hlastEnd hvalid, hendAt]) (fun hvalid => (hkept hvalid).1.trans (hz hvalid)) hend
  refine ⟨{ s₁ with nextPos := s₁.nextPos + call.count }, b₂, ?_, ?_⟩
  · rw [bounds, whenRequired_of_mem hreq.1, whenRequired_of_mem hreq.2, ← hs₁, ← hb₀]
    simp only [bind, Except.bind, hb₁, hb₂, pure, Except.pure]
  · have hframeBegin : b₂ .frameBegin = b₁ .frameBegin := (frameEnd_of_ne hb₂).2 _ (by decide) (by decide)
    have hleftover : .validEnd ∉ g.required → b₁ .validEnd = b .validEnd :=
      fun hvalid => hsameValid.2.trans (hkept hvalid).2
    constructor
    · rintro ⟨hbegs, hends⟩
      rw [hframeBegin] at hbegs
      exact ⟨hrt₁.1 hbegs, fun h => (hrt₂.1 hends h).congr hleftover⟩
    · rintro ⟨hbegs, hends⟩
      refine ⟨?_, hrt₂.2 fun h => (hends h).congr fun hvalid => (hleftover hvalid).symm⟩
      rw [hframeBegin]
      exact hrt₁.2 hbegs

/-- Three peers and a row that follows them, with frames of ranges. -/
def peersBetween (start stop : WindowBoundary) : WindowBoundaries ℕ :=
  { threePeers stop with wexpr := { (threePeers stop).wexpr with start := start } }

theorem peersBetween_isRangeGroup (start stop : WindowBoundary) :
    (peersBetween start stop).IsRangeGroup .ascending .nullsLast := by
  have hmasks : ∀ r < 4, (threePeers .invalid).partitionMask.rowIsValid r = true →
      (threePeers .invalid).orderMask.rowIsValid r = true := by decide
  have hone : ∀ r < 4, 0 < r → (threePeers .invalid).partitionMask.rowIsValid r = false := by decide
  have hord : ∀ r < 3, ((threePeers .invalid).orderMask.rowIsValid (r + 1) = false ↔
      (threePeers .invalid).range.getCell r = (threePeers .invalid).range.getCell (r + 1)) := by decide
  have hsort : ∀ r < 3, comp .ascending ((threePeers .invalid).range.getCell (r + 1))
      ((threePeers .invalid).range.getCell r) = false := by decide
  have hz : (threePeers .invalid).partitionMask.rowIsValid 0 = true := by decide
  refine ⟨⟨hz, hmasks, fun _ r hpos hr => hone r hr hpos, fun h => ?_⟩, rfl, fun r hr _ => ?_, ?_, ?_⟩
  · exact absurd h Nat.one_ne_zero
  · exact (hord r (lt_of_succ_lt_succ hr)).trans ⟨fun h => ⟨rfl, fun _ => h⟩, fun h => h.2 rfl⟩
  · exact fun _ _ _ h => h
  · exact fun r hr _ _ _ => hsort r (lt_of_succ_lt_succ hr)

/-- A row of the group, for which the boundary value is that of the peers. -/
def peersCall (row : ℕ) : BoundsCall ℕ := { afterPeers with rowIdx := row }

theorem rangeFrames_after_peers : ∃ s' b',
    (peersBetween .exprPrecedingRange .exprPrecedingRange).bounds (peersCall 3) .new (leftoverValidEnd 1) =
      .ok (s', b') ∧
    ((peersBetween .exprPrecedingRange .exprPrecedingRange).FramesRight .ascending (peersCall 3) b' ↔
      (peersBetween .exprPrecedingRange .exprPrecedingRange).FramesFound .ascending (peersCall 3)
        (leftoverValidEnd 1)) := by
  have hreq : .frameBegin ∈ (peersBetween .exprPrecedingRange .exprPrecedingRange).required ∧
      .frameEnd ∈ (peersBetween .exprPrecedingRange .exprPrecedingRange).required := by decide +kernel
  have hfrm : IsRangeFrame (peersBetween .exprPrecedingRange .exprPrecedingRange).wexpr :=
    ⟨.inr (.inr (.inl rfl)), .inr (.inr (.inl rfl))⟩
  have hboundary : (peersBetween .exprPrecedingRange .exprPrecedingRange).IsRangeBoundary .ascending
      (peersCall 3) .exprPrecedingRange afterPeers.boundaryEnd :=
    ⟨fun _ _ _ => rfl, fun i hi _ => by
      obtain rfl := lt_one_iff.1 hi
      exact (by decide : comp OrderType.ascending 5 1 = false)⟩
  exact rangeFrames_iff (peersBetween_isRangeGroup _ _) (.start rfl) ⟨Nat.one_pos, le_rfl⟩ hreq hfrm
    (fun _ => hboundary) (fun _ => hboundary) _

/-- Of two peers with the boundary value, the second one misses the first; of three, the first one misses the end of
    the group. -/
theorem not_framesRight :
    ((peersBetween .exprFollowingRange .unboundedFollowing).IsRangeGroup .ascending .nullsLast ∧
      (peersBetween .exprFollowingRange .unboundedFollowing).IsRangeBoundary .ascending (peersCall 1)
        .exprFollowingRange (peersCall 1).boundaryStart ∧
      ∃ s' b', (peersBetween .exprFollowingRange .unboundedFollowing).bounds (peersCall 1) .new
        (fun _ _ => 0) = .ok (s', b') ∧ b' .frameBegin 0 = 1 ∧
          ¬(peersBetween .exprFollowingRange .unboundedFollowing).FramesRight .ascending (peersCall 1) b') ∧
    (peersBetween .unboundedPreceding .exprPrecedingRange).IsRangeGroup .ascending .nullsLast ∧
      (peersBetween .unboundedPreceding .exprPrecedingRange).IsRangeBoundary .ascending (peersCall 0)
        .exprPrecedingRange (peersCall 0).boundaryEnd ∧
      ∃ s' b', (peersBetween .unboundedPreceding .exprPrecedingRange).bounds (peersCall 0) .new
        (fun _ _ => 0) = .ok (s', b') ∧ b' .frameEnd 0 = 1 ∧
          ¬(peersBetween .unboundedPreceding .exprPrecedingRange).FramesRight .ascending (peersCall 0) b' := by
  have hcs : ∀ {x : Except BoundsError (WindowBoundariesState × BoundsColumns)} {c : BoundsColumn},
      x.map (fun p => p.2 c 0) = .ok 1 → ∃ s' b', x = .ok (s', b') ∧ b' c 0 = 1 := by
    intro x c h
    cases x with
    | error e => cases h
    | ok p => exact ⟨p.1, p.2, rfl, Except.ok.inj h⟩
  have hside : ∀ row < 3, comp OrderType.ascending (if row = 3 then 5 else 1) 1 = false ∧
      comp OrderType.ascending 1 (if row = 3 then 5 else 1) = false := by decide
  constructor
  · refine ⟨peersBetween_isRangeGroup _ _, ⟨fun _ _ _ => rfl, fun i hi _ => ?_⟩, ?_⟩
    · obtain rfl := lt_one_iff.1 hi
      exact (hside 1 (by decide)).2
    obtain ⟨s', b', hrun, hval⟩ := @hcs ((peersBetween .exprFollowingRange .unboundedFollowing).bounds
      (peersCall 1) .new fun _ _ => 0) .frameBegin (by decide +kernel)
    refine ⟨s', b', hrun, hval, fun hrt => ?_⟩
    obtain ⟨begin, stop, first, last, hbegin, hstp, hrng, hf⟩ := hrt.start (.inr rfl) 0 Nat.one_pos rfl
    rw [hval] at hf
    have hz : begin = 0 := hbegin.unique ⟨by decide, Nat.zero_le _, fun i h₁ h₂ => by
      obtain rfl : i = 1 := by change i ≤ 1 at h₂; omega
      decide⟩
    have hmem := (hrng.valid_iff 0 hz.le ((Nat.zero_le _).trans_lt hstp.lt)).1 rfl
    exact absurd (hf.before 0 hmem.1 Nat.one_pos) (by decide)
  · refine ⟨peersBetween_isRangeGroup _ _, ⟨fun _ _ _ => rfl, fun i hi _ => ?_⟩, ?_⟩
    · obtain rfl := lt_one_iff.1 hi
      exact (hside 0 (by decide)).1
    obtain ⟨s', b', hrun, hval⟩ := @hcs ((peersBetween .unboundedPreceding .exprPrecedingRange).bounds
      (peersCall 0) .new fun _ _ => 0) .frameEnd (by decide +kernel)
    refine ⟨s', b', hrun, hval, fun hrt => ?_⟩
    obtain ⟨begin, stop, first, last, hbegin, hstp, hrng, hf⟩ := hrt.stop (.inl rfl) 0 Nat.one_pos rfl
    rw [hval] at hf
    have hlt : 1 < stop := by
      refine lt_of_le_of_ne hstp.lt fun h => ?_
      subst h
      exact absurd hstp.stop (by decide)
    have hmem := (hrng.valid_iff 1 (hbegin.le.trans (Nat.zero_le 1)) hlt).1 rfl
    exact absurd (hf.after 1 le_rfl hmem.2) (by decide)

end WindowBoundaries

end WfOpt

import WfOpt.Window.Boundaries

/-!
# Frames of rows

The bounds of a frame of rows are a number of rows before or behind the current one, and are clamped to the
partition. If the result does not fit into 64 bits with a sign, a bound of the partition is taken instead. It is too
large then (`rowsBound_trySubtract`), so the end of the frame is right, but its start is that of the partition
(`rowsFrames_iff`).
-/

namespace WfOpt

/-- The number that is nearest to `v` in the partition. -/
def clampTo (partitionBegin partitionEnd : ℕ) (v : ℤ) : ℤ := min (max v partitionBegin) partitionEnd

namespace WindowBoundaries

/-! ## Arithmetic with overflow -/

theorem toInt_int64 {r : ℕ} (h : r < 2 ^ 63) : (int64 r).toInt = r := by
  rw [int64, BitVec.toInt_ofNat']
  exact Int.bmod_eq_of_le (by omega) (by omega)

/-- If the difference does not fit, it is too large. -/
theorem rowsBound_trySubtract {r p : ℕ} (h : r < 2 ^ 63) (offset : BitVec 64) :
    rowsBound (trySubtract (int64 r) offset) p =
      if r - offset.toInt < 2 ^ 63 then (max (r - offset.toInt) 0).toNat else p := by
  have hlt : offset.toInt < 2 ^ 63 := offset.toInt_lt
  have hovf : (int64 r).ssubOverflow offset = decide (¬(r - offset.toInt < (2 ^ 63 : ℤ))) := by
    rw [BitVec.ssubOverflow, toInt_int64 h, ← Bool.decide_or]
    exact decide_eq_decide.2 (by omega)
  rw [trySubtract]
  by_cases hfits : r - offset.toInt < 2 ^ 63
  · have hnot : ¬(int64 r).ssubOverflow offset = true := by
      rw [hovf, decide_eq_true_iff]
      exact not_not.2 hfits
    rw [if_neg hnot, if_pos hfits, rowsBound, BitVec.toInt_sub_of_not_ssubOverflow hnot, toInt_int64 h]
  · rw [hovf, if_pos (decide_eq_true hfits), if_neg hfits]
    rfl

/-- If the sum does not fit, it is too large. -/
theorem rowsBound_tryAdd {r p : ℕ} (h : r < 2 ^ 63) (offset : BitVec 64) : rowsBound (tryAdd (int64 r) offset) p =
      if r + offset.toInt < 2 ^ 63 then (max (r + offset.toInt) 0).toNat else p := by
  have hle : -2 ^ 63 ≤ offset.toInt := offset.le_toInt
  have hovf : (int64 r).saddOverflow offset = decide (¬(r + offset.toInt < (2 ^ 63 : ℤ))) := by
    rw [BitVec.saddOverflow, toInt_int64 h, ← Bool.decide_or]
    exact decide_eq_decide.2 (by omega)
  rw [tryAdd]
  by_cases hfits : r + offset.toInt < 2 ^ 63
  · have hnot : ¬(int64 r).saddOverflow offset = true := by
      rw [hovf, decide_eq_true_iff]
      exact not_not.2 hfits
    rw [if_neg hnot, if_pos hfits, rowsBound, BitVec.toInt_add_of_not_saddOverflow hnot, toInt_int64 h]
  · rw [hovf, if_pos (decide_eq_true hfits), if_neg hfits]
    rfl

/-! ## Clamping -/

variable {partitionBegin partitionEnd p : ℕ} {v : ℤ}

/-- A result that fits is clamped to the right bound. -/
theorem clampTo_of_fits (h : v < 2 ^ 63) :
    ((min (max (if v < 2 ^ 63 then (max v 0).toNat else p) partitionBegin) partitionEnd : ℕ) : ℤ) =
      clampTo partitionBegin partitionEnd v := by
  rw [if_pos h, clampTo]
  omega

/-- The end of the partition stands for any result that is too large. -/
theorem clampTo_end (hpe : partitionEnd < 2 ^ 63) :
    ((min (max (if v < 2 ^ 63 then (max v 0).toNat else partitionEnd) partitionBegin)
      partitionEnd : ℕ) : ℤ) = clampTo partitionBegin partitionEnd v := by
  by_cases h : v < 2 ^ 63
  · exact clampTo_of_fits h
  · rw [if_neg h, clampTo]
    omega

theorem clampTo_begin_iff (hlt : partitionBegin < partitionEnd) (hpe : partitionEnd < 2 ^ 63) :
    ((min (max (if v < 2 ^ 63 then (max v 0).toNat else partitionBegin) partitionBegin)
      partitionEnd : ℕ) : ℤ) = clampTo partitionBegin partitionEnd v ↔ v < 2 ^ 63 := by
  by_cases h : v < 2 ^ 63
  · exact iff_of_true (clampTo_of_fits h) h
  · rw [if_neg h, clampTo]
    omega

/-! ## The frames -/

variable {V : Type*} [LinearOrder V] (g : WindowBoundaries V) (call : BoundsCall V)
  (s : WindowBoundariesState) (b : BoundsColumns) (i : ℕ)

/-- The start of the frame of a row is computed to be `v`. -/
def FrameBeginIs (v : ℤ) : Prop := ∃ b', g.frameBegin call b = .ok b' ∧ (b' .frameBegin i : ℤ) = v

/-- The end of the frame of a row is computed to be `v`. -/
def FrameEndIs (v : ℤ) : Prop := ∃ b', g.frameEnd call s b = .ok b' ∧ (b' .frameEnd i : ℤ) = v

/-- The frame is from as many rows before to as many behind as the offsets tell, clamped to the partition. -/
structure RowsFramesRight (partitionBegin partitionEnd : ℕ) : Prop where
  beginPreceding : g.wexpr.start = .exprPrecedingRows → g.FrameBeginIs call b i
    (clampTo partitionBegin partitionEnd
      ((call.rowIdx + i : ℕ) - (call.boundaryStart.getInt64 i).toInt))
  beginFollowing : g.wexpr.start = .exprFollowingRows → g.FrameBeginIs call b i
    (clampTo partitionBegin partitionEnd
      ((call.rowIdx + i : ℕ) + (call.boundaryStart.getInt64 i).toInt))
  endPreceding : g.wexpr.stop = .exprPrecedingRows → g.FrameEndIs call s b i
    (clampTo partitionBegin partitionEnd
      ((call.rowIdx + i + 1 : ℕ) - (call.boundaryEnd.getInt64 i).toInt))
  endFollowing : g.wexpr.stop = .exprFollowingRows → g.FrameEndIs call s b i
    (clampTo partitionBegin partitionEnd
      ((call.rowIdx + i + 1 : ℕ) + (call.boundaryEnd.getInt64 i).toInt))

variable {g call s b i} {x : Except BoundsError BoundsColumns}

/-- What the start of a frame is computed to be. -/
theorem frameBeginIs_iff {b' : BoundsColumns} (h : g.frameBegin call b = .ok b') :
    g.FrameBeginIs call b i v ↔ (b' .frameBegin i : ℤ) = v := by
  constructor
  · rintro ⟨b'', hb, hv⟩
    rwa [Except.ok.inj (h.symm.trans hb)]
  · exact fun hv => ⟨b', h, hv⟩

theorem frameEndIs_iff {b' : BoundsColumns} (h : g.frameEnd call s b = .ok b') :
    g.FrameEndIs call s b i v ↔ (b' .frameEnd i : ℤ) = v := by
  constructor
  · rintro ⟨b'', hb, hv⟩
    rwa [Except.ok.inj (h.symm.trans hb)]
  · exact fun hv => ⟨b', h, hv⟩

/-- The frame of a row is right if and only if its start fits 64 bits before it is clamped. -/
theorem rowsFrames_iff (g : WindowBoundaries V) (call : BoundsCall V) (s : WindowBoundariesState)
    (b : BoundsColumns) {i : ℕ} (hi : i < call.count) (hbegin : b .partitionBegin i ≤ call.rowIdx + i)
    (hend : call.rowIdx + i < b .partitionEnd i) (hsize : b .partitionEnd i < 2 ^ 63) :
    RowsFramesRight g call s b i (b .partitionBegin i) (b .partitionEnd i) ↔ (g.wexpr.start = .exprPrecedingRows →
        (call.rowIdx + i : ℕ) - (call.boundaryStart.getInt64 i).toInt < 2 ^ 63) ∧
      (g.wexpr.start = .exprFollowingRows →
        (call.rowIdx + i : ℕ) + (call.boundaryStart.getInt64 i).toInt < 2 ^ 63) := by
  have hrow : call.rowIdx + i < 2 ^ 63 := hend.trans hsize
  have hnx : call.rowIdx + i + 1 < 2 ^ 63 := lt_of_le_of_lt hend hsize
  have hlt : b .partitionBegin i < b .partitionEnd i := hbegin.trans_lt hend
  have hbeginPreceding : g.wexpr.start = .exprPrecedingRows → (g.FrameBeginIs call b i
      (clampTo (b .partitionBegin i) (b .partitionEnd i)
        ((call.rowIdx + i : ℕ) - (call.boundaryStart.getInt64 i).toInt)) ↔
      (call.rowIdx + i : ℕ) - (call.boundaryStart.getInt64 i).toInt < 2 ^ 63) := by
    intro hst
    rw [frameBeginIs_iff (by rw [frameBegin, hst]),
      BoundsColumns.clampFrame_fill hi (by decide) (by decide), rowsBound_trySubtract hrow]
    exact clampTo_begin_iff hlt hsize
  have hbeginFollowing : g.wexpr.start = .exprFollowingRows → (g.FrameBeginIs call b i
      (clampTo (b .partitionBegin i) (b .partitionEnd i)
        ((call.rowIdx + i : ℕ) + (call.boundaryStart.getInt64 i).toInt)) ↔
      (call.rowIdx + i : ℕ) + (call.boundaryStart.getInt64 i).toInt < 2 ^ 63) := by
    intro hst
    rw [frameBeginIs_iff (by rw [frameBegin, hst]),
      BoundsColumns.clampFrame_fill hi (by decide) (by decide), rowsBound_tryAdd hrow]
    exact clampTo_begin_iff hlt hsize
  constructor
  · intro h
    exact ⟨fun hst => (hbeginPreceding hst).1 (h.beginPreceding hst),
      fun hst => (hbeginFollowing hst).1 (h.beginFollowing hst)⟩
  · rintro ⟨hpreceding, hfoll⟩
    refine ⟨fun hst => (hbeginPreceding hst).2 (hpreceding hst),
      fun hst => (hbeginFollowing hst).2 (hfoll hst), fun hstp => ?_, fun hstp => ?_⟩
    · rw [frameEndIs_iff (by rw [frameEnd, hstp]),
        BoundsColumns.clampFrame_fill hi (by decide) (by decide), rowsBound_trySubtract hnx]
      exact clampTo_end hsize
    · rw [frameEndIs_iff (by rw [frameEnd, hstp]),
        BoundsColumns.clampFrame_fill hi (by decide) (by decide), rowsBound_tryAdd hnx]
      exact clampTo_end hsize

/-- A window of two rows, with frames of rows that follow. -/
def followingRows : WindowBoundaries ℕ where
  wexpr := ⟨.aggregate, 0, [.ascending], 0, .exprFollowingRows, .exprFollowingRows, .noOther⟩
  inputSize := 2
  partitionMask := .new
  orderMask := .new
  range := ⟨fun _ => false, id⟩

/-- The call for the two rows, with an offset for both bounds. -/
def followingCall (offset : BitVec 64) : BoundsCall ℕ where
  rowIdx := 0
  count := 2
  boundaryStart := ⟨fun _ => false, fun _ => offset, id⟩
  boundaryEnd := ⟨fun _ => false, fun _ => offset, id⟩

/-- The two rows are a partition. -/
def twoRowColumns : BoundsColumns
  | .partitionEnd, _ => 2
  | _, _ => 0

theorem rowsFrames_small : RowsFramesRight followingRows (followingCall 1) .new twoRowColumns 0 0 2 := by
  refine (rowsFrames_iff followingRows (followingCall 1) .new twoRowColumns (i := 0) (by decide)
    (by decide) (by decide) (by decide)).2 ⟨fun h => ?_, fun _ => by decide⟩
  cases h

/-- With the largest offset, the frame of the second row starts with the partition, although it
    should be empty. -/
theorem not_rowsFrames_large :
    ¬RowsFramesRight followingRows (followingCall (BitVec.intMax 64)) .new twoRowColumns 1 0 2 := by
  intro h
  obtain ⟨b', hb, hv⟩ := h.beginFollowing rfl
  obtain rfl := Except.ok.inj hb
  exact absurd hv (by decide)

end WindowBoundaries

end WfOpt

import WfOpt.Window.PeerBounds
import WfOpt.Window.RowsFrames

/-!
# LEAD and LAG

Without an order of its own, the argument of `LEAD` or `LAG` is taken from a row of the partition that is a number
of rows behind or before the current one (`shifted`). Under `IGNORE NULLS` only the rows whose argument is not
`NULL` count.

Rows are evaluated one by one or, if the offset and the default are constants and all rows count, in blocks, which
end with a partition and with a chunk. Both return the right values, and read no row outside the partition
(`LeadLag.evaluate_spec`).
-/

namespace WfOpt

open List WindowBoundaries

/-! ## Arguments -/

/-- An argument of the function in a chunk of rows. If it is foldable, it is the same for all rows. -/
structure ChunkArgument (α : Type*) where
  isFoldable : Bool
  cells : ℕ → Option α
  foldable_eq : isFoldable = true → ∀ i j, cells i = cells j

/-- The optional arguments: `offset_expr` and `default_expr`. -/
structure LeadLagArguments (V : Type*) where
  offset : Option (ChunkArgument (BitVec 64))
  default : Option (ChunkArgument V)

namespace LeadLagArguments

variable {V : Type*} (args : LeadLagArguments V)

/-- The offset of a row, which is 1 if there is none. -/
def offsetAt (i : ℕ) : Option (BitVec 64) := match args.offset with
  | some offset => offset.cells i
  | none => some 1

/-- The default of a row, which is `NULL` if there is none. -/
def defaultAt (i : ℕ) : Option V := match args.default with
  | some default => default.cells i
  | none => none

/-- The arguments are foldable, as far as they are there. -/
def isFoldable : Bool :=
  (args.offset.all fun offset => offset.isFoldable) && args.default.all fun default => default.isFoldable

end LeadLagArguments

/-! ## Rows at an offset -/

/-- The row of the partition from `pb` to `pe` that is `d` rows behind the current one, or before it for a negative
    `d`, among those with `p`. -/
def shifted (p : ℕ → Bool) (pb pe row : ℕ) (d : ℤ) : Option ℕ := if d = 0 then some row
  else if 0 < d then (marks p (row + 1) pe)[d.toNat - 1]?
  else (marks p pb row).reverse[(-d).toNat - 1]?

/-- The rows that are missing for such a row. -/
def missing (p : ℕ → Bool) (pb pe row : ℕ) (d : ℤ) : ℕ :=
  if 0 < d then d.toNat - (marks p (row + 1) pe).length else (-d).toNat - (marks p pb row).length

section Shifted

variable {p q : ℕ → Bool} {pb pe row : ℕ} {d : ℤ}

theorem shifted_congr (hrow : pb ≤ row) (hlt : row < pe) (h : ∀ i, pb ≤ i → i < pe → p i = q i) :
    shifted p pb pe row d = shifted q pb pe row d := by
  rw [shifted, shifted, marks_congr fun i h₁ h₂ => h i (by omega) h₂,
    marks_congr fun i h₁ h₂ => h i h₁ (h₂.trans hlt)]

theorem missing_eq_zero_iff : missing p pb pe row d = 0 ↔ (shifted p pb pe row d).isSome = true := by
  rw [missing, shifted]
  rcases lt_trichotomy d 0 with h | rfl | h
  · rw [if_neg h.not_gt, if_neg h.ne, if_neg h.not_gt, isSome_getElem?, length_reverse]
    omega
  · simp
  · rw [if_pos h, if_neg h.ne', if_pos h, isSome_getElem?]
    omega

theorem mem_of_shifted (hrow : pb ≤ row) (hlt : row < pe) {source : ℕ}
    (h : shifted p pb pe row d = some source) : pb ≤ source ∧ source < pe := by
  rw [shifted] at h
  split_ifs at h with hz hpos
  · obtain rfl := Option.some.inj h
    exact ⟨hrow, hlt⟩
  · have hmem := mem_marks.1 (mem_of_getElem? h)
    omega
  · have hmem := mem_marks.1 (mem_reverse.1 (mem_of_getElem? h))
    omega

/-- If all rows count, it is found by adding. -/
theorem shifted_true (hrow : pb ≤ row) (hlt : row < pe) : shifted (fun _ => true) pb pe row d =
    if pb ≤ row + d ∧ row + d < pe then some (row + d).toNat else none := by
  rw [shifted, marks_true, marks_true]
  rcases lt_trichotomy d 0 with h | rfl | h
  · rw [if_neg h.ne, if_neg h.not_gt]
    by_cases hin : pb ≤ row + d
    · rw [if_pos ⟨hin, by omega⟩, getElem?_reverse (by rw [length_range']; omega),
        length_range', getElem?_range' (by omega)]
      refine congrArg some ?_
      omega
    · rw [if_neg fun h' => hin h'.1]
      exact getElem?_eq_none (by rw [length_reverse, length_range']; omega)
  · rw [if_pos rfl, if_pos (by omega), add_zero, Int.toNat_natCast]
  · rw [if_neg h.ne', if_pos h]
    by_cases hin : row + d < pe
    · rw [if_pos ⟨by omega, hin⟩, getElem?_range' (by omega)]
      refine congrArg some ?_
      omega
    · rw [if_neg fun h' => hin h'.2]
      exact getElem?_eq_none (by rw [length_range']; omega)

theorem missing_true (hrow : pb ≤ row) (hlt : row < pe) (d : ℤ) : missing (fun _ => true) pb pe row d =
    if 0 < d then (row + d + 1 - pe).toNat else (pb - (row + d)).toNat := by
  rw [missing, marks_true, marks_true, length_range', length_range']
  split_ifs with h
  · omega
  · omega

end Shifted

/-! ## Evaluation -/

/-- `WindowCursor::Seek`: the chunk of a row, and the offset of the row in it. -/
def seek {α : Type*} : List (List α) → ℕ → List α × ℕ
  | [], row => ([], row)
  | chunk :: chunks, row => if row < chunk.length then (chunk, row) else seek chunks (row - chunk.length)

/-- `WindowLeadLagExecutor`, with the column of its argument and the mask of the rows that are not `NULL`
    (`validities`). -/
structure LeadLag (V : Type*) where
  isLead : Bool
  ignoreNulls : Bool
  chunks : List (List (Option V))
  validity : ValidityMask
  validity_eq : ∀ row < chunks.flatten.length,
    validity.rowIsValid row = (chunks.flatten.getD row none).isSome

/-- Where the loop is, with the cells of the result and the rows that were read for each row. -/
@[ext] structure LeadLagState (V : Type*) where
  i : ℕ
  rowIdx : ℕ
  result : ℕ → Option V
  reads : List (ℕ × ℕ)

namespace LeadLagState

variable {V : Type*} (s : LeadLagState V)

/-- The next cells of the result are set. -/
def write (width : ℕ) (cell : ℕ → Option V) : LeadLagState V where
  i := s.i + width
  rowIdx := s.rowIdx + width
  result := fun j => if s.i ≤ j ∧ j < s.i + width then cell j else s.result j
  reads := s.reads

/-- `VectorOperations::Copy`: the next cells are copied from the rows of a chunk, the first of which is
    `index`. -/
def copy (source : List (Option V)) (sourceOffset index copied : ℕ) : LeadLagState V :=
  { s.write copied fun j => source.getD (sourceOffset + (j - s.i)) none with
    reads := s.reads ++ (range copied).map fun k => (s.rowIdx + k, index + k) }

/-- `CopyCell` -/
def copyCell (chunks : List (List (Option V))) (row : ℕ) : LeadLagState V :=
  let (source, sourceOffset) := seek chunks row
  s.copy source sourceOffset row 1

/-- The loop that copies rows, in at most `width` turns, from as many chunks as they are in. -/
def copyRows (chunks : List (List (Option V))) : (fuel index width : ℕ) → LeadLagState V → LeadLagState V
  | 0, _, _, s => s
  | fuel + 1, index, width, s =>
    if width = 0 then s
    else
      let (source, sourceOffset) := seek chunks index
      let copied := min (source.length - sourceOffset) width
      copyRows chunks fuel (index + copied) (width - copied) (s.copy source sourceOffset index copied)

end LeadLagState

namespace LeadLag

variable {V : Type*} (e : LeadLag V)

/-- `ignore_nulls` -/
def mask : ValidityMask := if e.ignoreNulls then e.validity else .new

/-- The row at the offset, if it does not overflow. -/
def valIdx (rowIdx : ℕ) (offset : BitVec 64) : Option (BitVec 64) :=
  if e.isLead then tryAdd (int64 rowIdx) offset else WindowBoundaries.trySubtract (int64 rowIdx) offset

/-- The search for the row: where it ends, and `delta`, the rows that are missing. -/
def search (partitionBegin partitionEnd rowIdx : ℕ) (valIdx : BitVec 64) : ℕ × ℕ :=
  if valIdx.toInt < (int64 rowIdx).toInt then
    e.mask.findPrevStart partitionBegin rowIdx (int64 rowIdx - valIdx).toNat
  else if (int64 rowIdx).toInt < valIdx.toInt then
    e.mask.findNextStart (rowIdx + 1) partitionEnd (valIdx - int64 rowIdx).toNat
  else (rowIdx, 0)

/-- `can_shift` -/
def canShift (useFraming : Bool) (args : LeadLagArguments V) : Bool :=
  e.mask.validityMask.isNone && !useFraming && args.isFoldable

section Evaluate

variable (useFraming : Bool) (args : LeadLagArguments V) (rowEnd : ℕ)
  (partitionBegin partitionEnd : ℕ → ℕ)

/-- The rows with an offset, for the search from the first of them. -/
def evaluateAt (index delta : ℕ) (s : LeadLagState V) : LeadLagState V := if e.canShift useFraming args then
    let targetLimit := min (partitionEnd s.i) rowEnd - s.rowIdx
    if delta = 0 then
      let width := min (partitionEnd s.i - index) targetLimit
      s.copyRows e.chunks width index width
    else s.write (min delta targetLimit) args.defaultAt
  else if delta = 0 then s.copyCell e.chunks index
  else s.write 1 args.defaultAt

/-- A round of the loop; it throws if the offset overflows. -/
def evaluateStep (s : LeadLagState V) : Option (LeadLagState V) := match args.offsetAt s.i with
  | none => some (s.write 1 fun _ => none)
  | some offset => (e.valIdx s.rowIdx offset).map fun valIdx =>
      let (index, delta) := e.search (partitionBegin s.i) (partitionEnd s.i) s.rowIdx valIdx
      e.evaluateAt useFraming args rowEnd partitionEnd index delta s

/-- The loop over the rows of a chunk. A round sets a cell, so that `count` rounds are enough. -/
def evaluateFrom (count : ℕ) : (fuel : ℕ) → LeadLagState V → Option (LeadLagState V)
  | 0, s => some s
  | fuel + 1, s =>
    if s.i < count then
      (e.evaluateStep useFraming args rowEnd partitionBegin partitionEnd s).bind (evaluateFrom count fuel)
    else some s

/-- `EvaluateInternal`, without a `row_tree` -/
def evaluate (rowIdx count : ℕ) (result : ℕ → Option V) : Option (LeadLagState V) :=
  e.evaluateFrom useFraming args (rowIdx + count) partitionBegin partitionEnd count count
    ⟨0, rowIdx, result, []⟩

end Evaluate

/-! ## What is returned -/

/-- The rows that count. -/
def counted (row : ℕ) : Bool := !e.ignoreNulls || (e.chunks.flatten.getD row none).isSome

/-- How many rows to go from the current one. -/
def move (offset : BitVec 64) : ℤ := if e.isLead then offset.toInt else -offset.toInt

/-- No offset leads to a row number that overflows. -/
def Fits (args : LeadLagArguments V) (rowIdx count : ℕ) : Prop := ∀ i < count, ∀ offset,
  args.offsetAt i = some offset →
    -2 ^ 63 ≤ ((rowIdx + i : ℕ) : ℤ) + e.move offset ∧ ((rowIdx + i : ℕ) : ℤ) + e.move offset < 2 ^ 63

/-- The value of a row of the partition from `pb` to `pe`. -/
def valueAt (pb pe row : ℕ) (offset : Option (BitVec 64)) (dflt : Option V) : Option V := match offset with
  | none => none
  | some offset =>
    match shifted e.counted pb pe row (e.move offset) with
    | some source => e.chunks.flatten.getD source none
    | none => dflt

/-! ## Searches -/

theorem toNat_sub_of_le {x y : BitVec 64} (h : y.toInt ≤ x.toInt) : ((x - y).toNat : ℤ) = x.toInt - y.toInt := by
  rw [BitVec.toInt_eq_toNat_cond, BitVec.toInt_eq_toNat_cond] at h ⊢
  rw [BitVec.toNat_sub]
  omega

theorem valIdx_spec {row : ℕ} (hrow : row < 2 ^ 63) {offset : BitVec 64}
    (hle : -2 ^ 63 ≤ row + e.move offset) (hlt : row + e.move offset < 2 ^ 63) :
    ∃ v, e.valIdx row offset = some v ∧ v.toInt = row + e.move offset := by
  rw [valIdx]
  rw [move] at hle hlt ⊢
  have hint := toInt_int64 hrow
  cases hlead : e.isLead with
  | true =>
    rw [hlead, if_pos rfl] at hle hlt
    have hfits : ¬(int64 row).saddOverflow offset = true := by
      rw [BitVec.saddOverflow, hint, Bool.or_eq_true, decide_eq_true_iff, decide_eq_true_iff]
      omega
    rw [if_pos rfl, if_pos rfl, tryAdd, if_neg hfits]
    exact ⟨_, rfl, (BitVec.toInt_add_of_not_saddOverflow hfits).trans (by rw [hint])⟩
  | false =>
    rw [hlead, if_neg Bool.false_ne_true] at hle hlt
    have hfits : ¬(int64 row).ssubOverflow offset = true := by
      rw [BitVec.ssubOverflow, hint, Bool.or_eq_true, decide_eq_true_iff, decide_eq_true_iff]
      omega
    rw [if_neg Bool.false_ne_true, if_neg Bool.false_ne_true, WindowBoundaries.trySubtract, if_neg hfits]
    exact ⟨_, rfl, (BitVec.toInt_sub_of_not_ssubOverflow hfits).trans (by rw [hint, sub_eq_add_neg])⟩

/-- The search finds the row, or counts those that are missing. -/
theorem search_spec {pb row : ℕ} (pe : ℕ) (hrow : row < 2 ^ 63) (hpb : pb ≤ row) {v : BitVec 64} {d : ℤ}
    (hv : v.toInt = row + d) :
    (e.search pb pe row v).2 = missing e.mask.rowIsValid pb pe row d ∧
      ∀ source, shifted e.mask.rowIsValid pb pe row d = some source → (e.search pb pe row v).1 = source := by
  have hint := toInt_int64 hrow
  rw [search, missing, shifted, hint, hv]
  rcases lt_trichotomy d 0 with h | rfl | h
  · have hdlt : (int64 row - v).toNat = (-d).toNat := by
      have hsub := toNat_sub_of_le (x := int64 row) (y := v) (by omega)
      omega
    rw [if_pos (by omega), if_neg h.not_gt, if_neg h.ne, if_neg h.not_gt, hdlt,
      ValidityMask.findPrevStart_eq (by omega) hpb, nthMarkBack]
    refine ⟨rfl, fun source hsrc => ?_⟩
    rw [hsrc]
    rfl
  · rw [if_neg (by omega), if_neg (by omega), if_pos rfl, if_neg (lt_irrefl 0)]
    exact ⟨(Nat.zero_sub _).symm, fun source hsrc => Option.some.inj hsrc⟩
  · have hdlt : (v - int64 row).toNat = d.toNat := by
      have hsub := toNat_sub_of_le (x := v) (y := int64 row) (by omega)
      omega
    rw [if_neg (by omega), if_pos (by omega), if_pos h, if_neg h.ne', if_pos h, hdlt,
      ValidityMask.findNextStart_eq (by omega), nthMark]
    refine ⟨rfl, fun source hsrc => ?_⟩
    rw [hsrc]
    rfl

theorem mask_counted {row : ℕ} (hrow : row < e.chunks.flatten.length) : e.mask.rowIsValid row = e.counted row := by
  rw [mask, counted]
  cases e.ignoreNulls with
  | true => exact e.validity_eq row hrow
  | false => exact ValidityMask.rowIsValid_new row

/-! ## Copies -/

/-- What copying adjacent rows comes to. -/
def copied (s : LeadLagState V) (index width : ℕ) : LeadLagState V :=
  { s.write width fun j => e.chunks.flatten.getD (index + (j - s.i)) none with
    reads := s.reads ++ (range width).map fun k => (s.rowIdx + k, index + k) }

theorem seek_spec {α : Type*} {chunks : List (List α)} {row : ℕ} (h : row < chunks.flatten.length) :
    (seek chunks row).2 < (seek chunks row).1.length ∧ ∀ k, (seek chunks row).2 + k < (seek chunks row).1.length →
        (seek chunks row).1[(seek chunks row).2 + k]? = chunks.flatten[row + k]? := by
  induction chunks generalizing row with
  | nil => exact absurd h (Nat.not_lt_zero row)
  | cons chunk chunks ih =>
    rw [seek]
    rw [flatten_cons, length_append] at h
    split_ifs with hrow
    · refine ⟨hrow, fun k hk => ?_⟩
      rw [flatten_cons, getElem?_append_left hk]
    · obtain ⟨hlt, hcells⟩ := @ih (row - chunk.length) (by omega)
      refine ⟨hlt, fun k hk => ?_⟩
      rw [hcells k hk, flatten_cons, getElem?_append_right (by omega)]
      exact congrArg (chunks.flatten[·]?) (by omega)

section

variable (s : LeadLagState V)

theorem copy_seek {index width : ℕ} (h : index < e.chunks.flatten.length)
    (hwid : width ≤ (seek e.chunks index).1.length - (seek e.chunks index).2) :
    s.copy (seek e.chunks index).1 (seek e.chunks index).2 index width = e.copied s index width := by
  obtain ⟨hlt, hcells⟩ := seek_spec h
  refine LeadLagState.ext rfl rfl (funext fun j => ?_) rfl
  refine ite_congr rfl (fun hj => ?_) fun _ => rfl
  rw [getD_eq_getElem?_getD, getD_eq_getElem?_getD, hcells _ (by omega)]

theorem copied_add (index a b : ℕ) :
    e.copied (e.copied s index a) (index + a) b = e.copied s index (a + b) := by
  refine LeadLagState.ext (Nat.add_assoc _ _ _) (Nat.add_assoc _ _ _) (funext fun j => ?_) ?_
  · dsimp only [copied, LeadLagState.write]
    rcases Nat.lt_or_ge j (s.i + a) with hj | hj
    · rw [if_neg fun h => absurd hj (not_lt.2 h.1)]
      refine if_congr ?_ rfl rfl
      omega
    · rw [if_neg (c := s.i ≤ j ∧ j < s.i + a) fun h => absurd h.2 (not_lt.2 hj)]
      refine ite_congr ?_ (fun h => ?_) fun _ => rfl
      · exact propext (by omega)
      · exact congrArg (e.chunks.flatten.getD · none) (by omega)
  · dsimp only [copied, LeadLagState.write]
    rw [append_assoc, range_add, map_append, map_map]
    refine congrArg (fun l => s.reads ++ (_ ++ l)) (map_congr_left fun k _ => ?_)
    dsimp only [Function.comp]
    rw [Nat.add_assoc, Nat.add_assoc]

theorem copied_zero (index : ℕ) : e.copied s index 0 = s := by
  refine LeadLagState.ext rfl rfl (funext fun j => if_neg ?_) (append_nil _)
  omega

theorem copyRows_eq {fuel index width : ℕ} (hfuel : width ≤ fuel)
    (h : index + width ≤ e.chunks.flatten.length) :
    s.copyRows e.chunks fuel index width = e.copied s index width := by
  induction fuel generalizing s index width with
  | zero =>
    obtain rfl := Nat.le_zero.1 hfuel
    exact (e.copied_zero s index).symm
  | succ fuel ih =>
    rw [LeadLagState.copyRows]
    by_cases hwid : width = 0
    · rw [if_pos hwid, hwid, copied_zero]
    · obtain ⟨hlt, -⟩ := seek_spec (show index < e.chunks.flatten.length by omega)
      rw [if_neg hwid]
      dsimp only
      rw [e.copy_seek s (by omega) (Nat.min_le_left _ _)]
      generalize hcop : min ((seek e.chunks index).1.length - (seek e.chunks index).2) width = c
      rw [ih (e.copied s index c) (by omega) (by omega), copied_add, Nat.add_sub_cancel' (by omega)]

end

/-! ## The loop -/

section Loop

variable {args : LeadLagArguments V} {rowIdx count : ℕ} {pb pe : ℕ → ℕ}

/-- The columns have the partitions of the rows of a chunk. -/
structure PartitionColumns (size rowIdx count : ℕ) (pb pe : ℕ → ℕ) : Prop where
  begin_le : ∀ i < count, pb i ≤ rowIdx + i
  lt_end : ∀ i < count, rowIdx + i < pe i
  end_le : ∀ i < count, pe i ≤ size
  same : ∀ i j, i ≤ j → j < count → rowIdx + j < pe i →
    pb j = pb i ∧ pe j = pe i

/-- The value of a row of the chunk. -/
def chunkValue (args : LeadLagArguments V) (rowIdx : ℕ) (pb pe : ℕ → ℕ) (i : ℕ) : Option V :=
  e.valueAt (pb i) (pe i) (rowIdx + i) (args.offsetAt i) (args.defaultAt i)

/-- The cells before the current one have their values, and only rows of their partitions were read. -/
structure Evaluated (args : LeadLagArguments V) (rowIdx count : ℕ) (pb pe : ℕ → ℕ)
    (s : LeadLagState V) : Prop where
  le : s.i ≤ count
  rowIdx_eq : s.rowIdx = rowIdx + s.i
  result : ∀ j < s.i, s.result j = e.chunkValue args rowIdx pb pe j
  reads : ∀ p ∈ s.reads, ∃ j < s.i, p.1 = rowIdx + j ∧ pb j ≤ p.2 ∧ p.2 < pe j

variable {e} {s : LeadLagState V}

/-- Cells that are set without reading a row. -/
theorem Evaluated.write (h : e.Evaluated args rowIdx count pb pe s) {width : ℕ}
    (hle : s.i + width ≤ count) {cell : ℕ → Option V}
    (hcell : ∀ j, s.i ≤ j → j < s.i + width → cell j = e.chunkValue args rowIdx pb pe j) :
    e.Evaluated args rowIdx count pb pe (s.write width cell) := by
  have hrowIdx := (congrArg (· + width) h.rowIdx_eq).trans (Nat.add_assoc _ _ _)
  refine ⟨hle, hrowIdx, fun j hj => ?_, fun p hp => ?_⟩
  · dsimp only [LeadLagState.write]
    split_ifs with hin
    · exact hcell j hin.1 hin.2
    · exact h.result j (by dsimp only [LeadLagState.write] at hj; omega)
  · obtain ⟨j, hj, hrd⟩ := h.reads p hp
    exact ⟨j, Nat.lt_add_right width hj, hrd⟩

/-- Cells that are copied from adjacent rows. -/
theorem Evaluated.copied (h : e.Evaluated args rowIdx count pb pe s) {index width : ℕ} (hle : s.i + width ≤ count)
    (hcell : ∀ k < width, e.chunks.flatten.getD (index + k) none = e.chunkValue args rowIdx pb pe (s.i + k))
    (hrd : ∀ k < width, pb (s.i + k) ≤ index + k ∧ index + k < pe (s.i + k)) :
    e.Evaluated args rowIdx count pb pe (e.copied s index width) := by
  have hcells : ∀ j, s.i ≤ j → j < s.i + width →
      e.chunks.flatten.getD (index + (j - s.i)) none = e.chunkValue args rowIdx pb pe j := by
    intro j hle' hlt
    have hk := hcell (j - s.i) (by omega)
    rwa [Nat.add_sub_cancel' hle'] at hk
  have hwrt := h.write hle hcells
  refine ⟨hwrt.le, hwrt.rowIdx_eq, hwrt.result, fun p hp => ?_⟩
  rcases mem_append.1 hp with hp | hp
  · exact hwrt.reads p hp
  · obtain ⟨k, hk, rfl⟩ := mem_map.1 hp
    rw [mem_range] at hk
    refine ⟨s.i + k, Nat.add_lt_add_left hk _, ?_, hrd k hk⟩
    rw [h.rowIdx_eq, Nat.add_assoc]

/-- The rows of a block have the same offset and the same default. -/
theorem offsetAt_eq (h : args.isFoldable = true) (i j : ℕ) : args.offsetAt i = args.offsetAt j := by
  rw [LeadLagArguments.isFoldable, Bool.and_eq_true] at h
  rw [LeadLagArguments.offsetAt, LeadLagArguments.offsetAt]
  cases hoff : args.offset with
  | none => rfl
  | some offset =>
    rw [hoff] at h
    exact offset.foldable_eq h.1 i j

theorem evaluateAt_spec (hcolm : PartitionColumns e.chunks.flatten.length rowIdx count pb pe)
    (h : e.Evaluated args rowIdx count pb pe s) (hi : s.i < count) {offset : BitVec 64}
    (hoff : args.offsetAt s.i = some offset) {index delta : ℕ}
    (hdlt : delta = missing e.mask.rowIsValid (pb s.i) (pe s.i) s.rowIdx (e.move offset))
    (hidx : ∀ source, shifted e.mask.rowIsValid (pb s.i) (pe s.i) s.rowIdx
      (e.move offset) = some source → index = source) (useFraming : Bool) :
    let s' := e.evaluateAt useFraming args (rowIdx + count) pe index delta s
    e.Evaluated args rowIdx count pb pe s' ∧ s.i < s'.i := by
  have hpb := hcolm.begin_le s.i hi
  have hpe := hcolm.lt_end s.i hi
  have hend := hcolm.end_le s.i hi
  have hval : ∀ j, s.i ≤ j → j < count → rowIdx + j < pe s.i → args.offsetAt j = some offset →
      e.chunkValue args rowIdx pb pe j =
        match shifted e.mask.rowIsValid (pb s.i) (pe s.i) (rowIdx + j) (e.move offset) with
        | some source => e.chunks.flatten.getD source none
        | none => args.defaultAt j := by
    intro j hij hj hlt hoff
    obtain ⟨hbeg, hstp⟩ := hcolm.same s.i j hij hj hlt
    rw [chunkValue, hoff, hbeg, hstp]
    dsimp only [valueAt]
    rw [shifted_congr (p := e.counted) (q := e.mask.rowIsValid) (by omega) hlt fun i _ h₂ =>
        (e.mask_counted (h₂.trans_le hend)).symm]
  rw [h.rowIdx_eq] at hdlt hidx
  rw [evaluateAt]
  cases hsh : e.canShift useFraming args with
  | false =>
    rw [if_neg Bool.false_ne_true]
    by_cases hz : delta = 0
    · rw [if_pos hz]
      have hsome := missing_eq_zero_iff.1 (hdlt.symm.trans hz)
      obtain ⟨source, hsrc⟩ := Option.isSome_iff_exists.1 hsome
      obtain rfl := hidx source hsrc
      have hmem := mem_of_shifted hpb hpe hsrc
      obtain ⟨hlt, -⟩ := seek_spec (hmem.2.trans_le hend)
      have hcopy : s.copyCell e.chunks index = e.copied s index 1 := e.copy_seek s (hmem.2.trans_le hend) (by omega)
      rw [hcopy]
      refine ⟨h.copied (by omega) (fun k hk => ?_) (fun k hk => ?_), Nat.lt_succ_self _⟩
      · obtain rfl := Nat.lt_one_iff.1 hk
        rw [Nat.add_zero, Nat.add_zero, hval s.i le_rfl hi hpe hoff, hsrc]
      · obtain rfl := Nat.lt_one_iff.1 hk
        exact hmem
    · rw [if_neg hz]
      refine ⟨h.write (by omega) fun j hij hj => ?_, Nat.lt_succ_self _⟩
      obtain rfl : j = s.i := by omega
      have hno : shifted e.mask.rowIsValid (pb s.i) (pe s.i) (rowIdx + s.i)
          (e.move offset) = none := by
        rw [← Option.not_isSome_iff_eq_none, ← missing_eq_zero_iff, ← hdlt]
        exact hz
      rw [hval s.i le_rfl hi hpe hoff, hno]
  | true =>
    rw [canShift, Bool.and_eq_true, Bool.and_eq_true] at hsh
    have hmask := ValidityMask.rowIsValid_of_none (Option.isNone_iff_eq_none.1 hsh.1.1)
    have hsm : ∀ j, args.offsetAt j = some offset := fun j => (offsetAt_eq hsh.2 j s.i).trans hoff
    rw [hmask] at hdlt hidx hval
    rw [shifted_true hpb hpe] at hidx
    rw [missing_true hpb hpe] at hdlt
    rw [if_pos rfl, h.rowIdx_eq]
    by_cases hz : delta = 0
    · -- the rows at the offset are in the partition, as long as the block goes on
      have hin : pb s.i ≤ ((rowIdx + s.i : ℕ) : ℤ) + e.move offset ∧
          ((rowIdx + s.i : ℕ) : ℤ) + e.move offset < pe s.i := by
        split_ifs at hdlt <;> omega
      have hidx' := hidx _ (if_pos hin)
      rw [if_pos hz]
      rw [e.copyRows_eq s le_rfl (by omega)]
      refine ⟨h.copied (by omega) (fun k hk => ?_) (fun k hk => ?_), ?_⟩
      · rw [hval (s.i + k) (by omega) (by omega) (by omega) (hsm _),
          shifted_true (by omega) (by omega), if_pos (by omega)]
        exact congrArg (e.chunks.flatten.getD · none) (by omega)
      · obtain ⟨hbeg, hstp⟩ := hcolm.same s.i (s.i + k) (by omega) (by omega) (by omega)
        omega
      · exact Nat.lt_add_of_pos_right (by omega)
    · rw [if_neg hz]
      refine ⟨h.write (by omega) fun j hij hj => ?_, Nat.lt_add_of_pos_right (by omega)⟩
      rw [hval j hij (by omega) (by omega) (hsm j), shifted_true (by omega) (by omega), if_neg]
      split_ifs at hdlt <;> omega

theorem evaluateStep_spec (hcolm : PartitionColumns e.chunks.flatten.length rowIdx count pb pe)
    (hsz : e.chunks.flatten.length < 2 ^ 63)
    (hfits : e.Fits args rowIdx count) (h : e.Evaluated args rowIdx count pb pe s) (hi : s.i < count)
    (useFraming : Bool) :
    ∃ s', e.evaluateStep useFraming args (rowIdx + count) pb pe s = some s' ∧
      e.Evaluated args rowIdx count pb pe s' ∧ s.i < s'.i := by
  rw [evaluateStep]
  cases hoff : args.offsetAt s.i with
  | none =>
    refine ⟨_, rfl, h.write (by omega) fun j hij hj => ?_, Nat.lt_succ_self _⟩
    obtain rfl : j = s.i := by omega
    rw [chunkValue, hoff]
    rfl
  | some offset =>
    have hpb := hcolm.begin_le s.i hi
    have hrow : s.rowIdx < 2 ^ 63 := by
      have hpe := hcolm.lt_end s.i hi
      have hend := hcolm.end_le s.i hi
      have hrowIdx := h.rowIdx_eq
      omega
    obtain ⟨hle, hlt⟩ := hfits s.i hi offset hoff
    rw [← h.rowIdx_eq] at hle hlt hpb
    obtain ⟨v, hv, hint⟩ := e.valIdx_spec hrow hle hlt
    dsimp only
    rw [hv]
    obtain ⟨hdlt, hidx⟩ := e.search_spec (pe s.i) hrow hpb hint
    exact ⟨_, rfl, evaluateAt_spec hcolm h hi hoff hdlt hidx useFraming⟩

theorem evaluateFrom_spec (hcolm : PartitionColumns e.chunks.flatten.length rowIdx count pb pe)
    (hsz : e.chunks.flatten.length < 2 ^ 63)
    (hfits : e.Fits args rowIdx count) (useFraming : Bool) : ∀ {fuel : ℕ} {s : LeadLagState V},
      e.Evaluated args rowIdx count pb pe s → count - s.i ≤ fuel →
      ∃ s', e.evaluateFrom useFraming args (rowIdx + count) pb pe count fuel s = some s' ∧
        e.Evaluated args rowIdx count pb pe s' ∧ s'.i = count
  | 0, s, h, hfuel => ⟨s, rfl, h, le_antisymm h.le (by omega)⟩
  | fuel + 1, s, h, hfuel => by
    rw [evaluateFrom]
    by_cases hi : s.i < count
    · obtain ⟨s', hs', hnx, hlt⟩ := evaluateStep_spec hcolm hsz hfits h hi useFraming
      rw [if_pos hi, hs']
      exact evaluateFrom_spec hcolm hsz hfits useFraming hnx (by omega)
    · rw [if_neg hi]
      exact ⟨s, rfl, h, le_antisymm h.le (not_lt.1 hi)⟩

end Loop

/-! ## Without framing -/

section Unframed

variable {X : Type*} [LinearOrder X] {g : WindowBoundaries X} {call : BoundsCall X} {b : BoundsColumns}

omit [LinearOrder X] in
/-- The bounds of the partitions are columns that a block may rely on. -/
theorem partitionColumns_of_rowColumns (h : g.RowColumns call b) (hbeg : .partitionBegin ∈ g.required)
    (hend : .partitionEnd ∈ g.required) :
    PartitionColumns g.inputSize call.rowIdx call.count (b .partitionBegin) (b .partitionEnd) := by
  refine ⟨fun i hi => (h.partitionBegin hbeg i hi).le, fun i hi => (h.partitionEnd hend i hi).lt,
    fun i hi => (h.partitionEnd hend i hi).le, fun i j hij hj hlt => ?_⟩
  have hst := h.partitionBegin hbeg i (hij.trans_lt hj)
  have hstp := h.partitionEnd hend i (hij.trans_lt hj)
  have hrs : call.rowIdx + i ≤ call.rowIdx + j := Nat.add_le_add_left hij _
  constructor
  · exact (h.partitionBegin hbeg j hj).unique
      (hst.of_le hrs fun k h₁ h₂ => hstp.inner k h₁ (h₂.trans_lt hlt))
  · exact (h.partitionEnd hend j hj).unique (hstp.of_le hrs hlt)

omit [LinearOrder X] in
theorem required_unframed {isLead : Bool} (htype : g.wexpr.type = if isLead then .lead else .lag)
    (hargs : g.wexpr.argOrders = 0) :
    (.partitionBegin ∈ g.required ∧ .partitionEnd ∈ g.required) ∧ .frameBegin ∉ g.required ∧
      .frameEnd ∉ g.required := by
  have hexecutor : g.wexpr.executorBounds = {.partitionBegin, .partitionEnd} := by
    rw [BoundWindowExpression.executorBounds, htype]
    cases isLead with
    | true => exact if_pos hargs
    | false => exact if_pos hargs
  have hmem : ∀ c, c ∈ g.wexpr.executorBounds → c ∈ g.required := fun c hc =>
    BoundWindowExpression.mem_getWindowBounds (BoundWindowExpression.mem_requireForFrames.2 (.inl hc))
  have hnot : ∀ c, c = .frameBegin ∨ c = .frameEnd → c ∉ g.required := by
    intro c hc h
    have hexec := BoundWindowExpression.mem_executorBounds h hc
    rw [hexecutor] at hexec
    rcases hc with rfl | rfl <;> exact absurd hexec (by decide)
  rw [hexecutor] at hmem
  exact ⟨⟨hmem _ (by decide), hmem _ (by decide)⟩, hnot _ (.inl rfl), hnot _ (.inr rfl)⟩

/-- After any run of calls, the rows get the values at their offsets, and nothing outside their partitions is read. -/
theorem evaluate_spec (hg : g.IsGroup) (e : LeadLag V)
    (htype : g.wexpr.type = if e.isLead then .lead else .lag) (hargs : g.wexpr.argOrders = 0)
    (hrows : e.chunks.flatten.length = g.inputSize) (hsize : g.inputSize < 2 ^ 63)
    {s : WindowBoundariesState} (hs : g.Reaches s) (hcall : g.InGroup call) (b : BoundsColumns)
    (args : LeadLagArguments V)
    (hfits : e.Fits args call.rowIdx call.count) (result : ℕ → Option V) (useFraming : Bool) :
    ∃ s' b' r, g.bounds call s b = .ok (s', b') ∧
      e.evaluate useFraming args (b' .partitionBegin) (b' .partitionEnd) call.rowIdx call.count result = some r ∧
      (∀ i < call.count, ∀ pb pe, IsStartOf g.partitionMask.rowIsValid (call.rowIdx + i) pb →
        IsEndOf g.partitionMask.rowIsValid g.inputSize (call.rowIdx + i) pe →
        r.result i = e.valueAt pb pe (call.rowIdx + i) (args.offsetAt i) (args.defaultAt i)) ∧
      ∀ p ∈ r.reads, call.rowIdx ≤ p.1 ∧ p.1 < call.rowIdx + call.count ∧
        ∀ pb pe, IsStartOf g.partitionMask.rowIsValid p.1 pb →
          IsEndOf g.partitionMask.rowIsValid g.inputSize p.1 pe → pb ≤ p.2 ∧ p.2 < pe := by
  obtain ⟨⟨hbeg, hend⟩, hframeBegin, hframeEnd⟩ := required_unframed htype hargs
  have hbds : ∃ s' b', g.bounds call s b = .ok (s', b') := by
    rw [bounds, whenRequired_of_not_mem hframeEnd, whenRequired_of_not_mem hframeBegin]
    exact ⟨_, _, rfl⟩
  obtain ⟨s', b', hrun⟩ := hbds
  have hcolm := (rowColumns_of_reaches hg hs hcall b).2 s' b' hrun
  have hpart := partitionColumns_of_rowColumns hcolm hbeg hend
  rw [← hrows] at hpart hsize
  have hst : e.Evaluated args call.rowIdx call.count (b' .partitionBegin) (b' .partitionEnd)
      ⟨0, call.rowIdx, result, []⟩ :=
    ⟨Nat.zero_le _, rfl, fun j hj => absurd hj (Nat.not_lt_zero j), fun p hp => absurd hp not_mem_nil⟩
  obtain ⟨r, hr, hevaluated, hcnt⟩ := evaluateFrom_spec hpart hsize hfits useFraming hst le_rfl
  refine ⟨s', b', r, hrun, hr, fun i hi pb pe hpb hpe => ?_, fun p hp => ?_⟩
  · rw [hevaluated.result i (by omega), chunkValue, (hcolm.partitionBegin hbeg i hi).unique hpb,
      (hcolm.partitionEnd hend i hi).unique hpe]
  · obtain ⟨j, hj, hrow, hrd⟩ := hevaluated.reads p hp
    rw [hcnt] at hj
    refine ⟨by omega, by omega, fun pb pe hpb hpe => ?_⟩
    rw [hrow] at hpb hpe
    rwa [← (hcolm.partitionBegin hbeg j hj).unique hpb, ← (hcolm.partitionEnd hend j hj).unique hpe]

/-- `LAG` over two partitions of two rows each. -/
def lagOfPairs : WindowBoundaries ℕ where
  wexpr := ⟨.lag, 1, [.ascending], 0, .unboundedPreceding, .currentRowRange, .noOther⟩
  inputSize := 4
  partitionMask := ⟨some fun _ => 5#64⟩
  orderMask := ⟨some fun _ => 5#64⟩
  range := ⟨fun _ => false, (· / 2)⟩

/-- Its argument, in two chunks. -/
def lagArgument : LeadLag ℕ where
  isLead := false
  ignoreNulls := true
  chunks := [[some 1, some 2, none], [some 4]]
  validity := ⟨some fun _ => 11#64⟩
  validity_eq := by decide

theorem evaluate_spec_lagOfPairs : ∃ s' b' r, lagOfPairs.bounds lastPair .new (fun _ _ => 7) = .ok (s', b') ∧
      lagArgument.evaluate false ⟨none, none⟩ (b' .partitionBegin) (b' .partitionEnd) 2 2 (fun _ => none) = some r ∧
      (∀ i < 2, ∀ pb pe, IsStartOf lagOfPairs.partitionMask.rowIsValid (2 + i) pb →
        IsEndOf lagOfPairs.partitionMask.rowIsValid 4 (2 + i) pe →
        r.result i = lagArgument.valueAt pb pe (2 + i) (some 1) none) ∧
      ∀ p ∈ r.reads, 2 ≤ p.1 ∧ p.1 < 2 + 2 ∧ ∀ pb pe, IsStartOf lagOfPairs.partitionMask.rowIsValid p.1 pb →
          IsEndOf lagOfPairs.partitionMask.rowIsValid 4 p.1 pe → pb ≤ p.2 ∧ p.2 < pe :=
  have hgrp : lagOfPairs.IsGroup :=
    ⟨by decide, fun _ _ h => h, fun h => absurd h (by decide), fun h => absurd h (by decide)⟩
  have hcall : lagOfPairs.InGroup lastPair := ⟨by decide, by decide⟩
  evaluate_spec hgrp lagArgument rfl rfl rfl (by decide) (.start rfl) hcall (fun _ _ => 7) ⟨none, none⟩
    (fun i hi offset h => by
      obtain rfl := Option.some.inj h
      have hmove : lagArgument.move 1 = -1 := by decide
      rw [hmove]
      have hi' : i < 2 := hi
      have hrow : lastPair.rowIdx = 2 := rfl
      rw [hrow]
      omega) (fun _ => none) false

end Unframed

end LeadLag

end WfOpt

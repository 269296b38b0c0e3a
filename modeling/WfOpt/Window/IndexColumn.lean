import WfOpt.Sort.KeyOrder

/-!
# The index column of merge sort trees

The rows of a merge sort tree are sorted together with their indexes (`IndexChunk.sink`), of type `INTEGER` if the
number of rows is below the limit of unsigned 32-bit numbers, of type `BIGINT` otherwise (`indexType`). The unsigned
elements of the tree are the rows if these are below the limit of the *signed* type (`indexesRows_iff`).
-/

namespace WfOpt

open List Function

/-- The constructor of `WindowMergeSortTree`: the type of the indexes. -/
def indexType (count : ℕ) (forceExternal : Bool) : IntegerWidth :=
  if count < 2 ^ 32 - 1 ∧ forceExternal = false then .w32 else .w64

namespace IntegerWidth

variable (width : IntegerWidth)

/-- `NumericLimits::Maximum` of a signed type. -/
def maximum : ℤ := 2 ^ (8 * width.bytes - 1) - 1

/-- The loop of `TemplatedGenerateSequence`: the sum with the 64-bit increment is cut. -/
def sequenceValues (increment : BitVec 64) : ℕ → BitVec (8 * width.bytes) → List (BitVec (8 * width.bytes))
  | 0, _ => []
  | n + 1, value =>
    value :: sequenceValues increment n ((value.signExtend 64 + increment).setWidth (8 * width.bytes))

/-- `GenerateSequence`: nothing if the start or the increment is out of the range of the type. -/
def generateSequence (count : ℕ) (start increment : BitVec 64) : Option (List (BitVec (8 * width.bytes))) :=
  if width.maximum < start.toInt ∨ width.maximum < increment.toInt then none
  else some (width.sequenceValues increment count (start.setWidth (8 * width.bytes)))

/-- `GenerateSequence` for the rows of a selection. -/
def generateSequenceSel (sel : List ℕ) (start increment : BitVec 64) : Option (List (BitVec (8 * width.bytes))) :=
  if width.maximum < start.toInt ∨ width.maximum < increment.toInt then none
  else some (sel.map fun idx => (start + increment * BitVec.ofNat 64 idx).setWidth (8 * width.bytes))

/-- The sort key of an index: `ASC NULLS LAST`. -/
def indexKey (v : BitVec (8 * width.bytes)) : List UInt8 :=
  encodeValue ⟨.ascending, .nullsLast⟩ (.fixed (.signed width)) (some v)

end IntegerWidth

/-- A chunk that is sunk: where it begins, and the rows that pass the `FILTER` clause, if there is one. -/
structure IndexChunk where
  rowIdx : ℕ
  size : ℕ
  filterSel : Option (List ℕ)
  lt_size : ∀ sel, filterSel = some sel → ∀ i ∈ sel, i < size

namespace IndexChunk

variable (chunk : IndexChunk)

/-- The rows that are sunk. -/
def rows : List ℕ := (chunk.filterSel.getD (range chunk.size)).map (chunk.rowIdx + ·)

/-- `WindowMergeSortTreeLocalState::Sink`: the values of the index column. -/
def sink (width : IntegerWidth) : Option (List (BitVec (8 * width.bytes))) := match chunk.filterSel with
  | none => width.generateSequence chunk.size (BitVec.ofNat 64 chunk.rowIdx) 1
  | some sel => width.generateSequenceSel sel (BitVec.ofNat 64 chunk.rowIdx) 1

end IndexChunk

/-- `BuildLeaves`: the element of a sorted index, copied from a signed to an unsigned type. -/
def leafElement {n : ℕ} (index : BitVec n) : ℕ := index.toNat

/-- An index is the number of a row, as the signed value and as the unsigned element. -/
def IsIndexOf {n : ℕ} (row : ℕ) (v : BitVec n) : Prop := v.toInt = row ∧ leafElement v = row

/-- The indexes of the rows can be sunk; they are the signed values, ordered as the rows are, and the unsigned
    elements of the tree. -/
structure IndexesRows (count : ℕ) (width : IntegerWidth) : Prop where
  sunk : ∀ chunk : IndexChunk, chunk.rowIdx + chunk.size ≤ count → chunk.rows ≠ [] →
    ∃ values, chunk.sink width = some values ∧
      List.Forall₂ IsIndexOf chunk.rows values
  ordered : ∀ chunk chunk' : IndexChunk, chunk.rowIdx + chunk.size ≤ count →
    chunk'.rowIdx + chunk'.size ≤ count → ∀ values values', chunk.sink width = some values →
    chunk'.sink width = some values' → ∀ p ∈ chunk.rows.zip values, ∀ p' ∈ chunk'.rows.zip values',
    (width.indexKey p.2 < width.indexKey p'.2 ↔ p.1 < p'.1)

/-! ## Sequences -/

section

variable {width : IntegerWidth} (hwidth : width.bytes ≤ 8)
include hwidth

theorem bits_le : 8 * width.bytes ≤ 64 := Nat.mul_le_mul_left 8 hwidth

/-- Adding one to an index gives the next one. -/
theorem setWidth_signExtend_add (row : ℕ) :
    ((BitVec.ofNat (8 * width.bytes) row).signExtend 64 + 1).setWidth (8 * width.bytes) =
      BitVec.ofNat (8 * width.bytes) (row + 1) := by
  have hbits := bits_le hwidth
  rw [BitVec.setWidth_add _ _ hbits, BitVec.ofNat_add]
  refine congrArg₂ (· + ·) ?_ (BitVec.setWidth_ofNat_of_le hbits 1)
  refine BitVec.eq_of_getLsbD_eq fun i hi => ?_
  rw [BitVec.getLsbD_setWidth, BitVec.getLsbD_signExtend, decide_eq_true hi,
    decide_eq_true (hi.trans_le hbits), if_pos hi, Bool.true_and, Bool.true_and]

theorem sequenceValues_eq (n row : ℕ) : width.sequenceValues 1 n (BitVec.ofNat (8 * width.bytes) row) =
      (range n).map fun i => BitVec.ofNat (8 * width.bytes) (row + i) := by
  induction n generalizing row with
  | zero => rfl
  | succ n ih =>
    rw [IntegerWidth.sequenceValues, setWidth_signExtend_add hwidth, ih, range_succ_eq_map, map_cons, map_map]
    refine congrArg _ (map_congr_left fun i _ => ?_)
    rw [comp_apply, Nat.succ_eq_add_one, Nat.add_comm i 1, Nat.add_assoc]

/-- The indexes are sunk modulo the size of the type, if the chunk begins in its range. -/
theorem IndexChunk.sink_eq (chunk : IndexChunk) : chunk.sink width =
    if width.maximum < (BitVec.ofNat 64 chunk.rowIdx).toInt then none
    else some (chunk.rows.map (BitVec.ofNat (8 * width.bytes))) := by
  have hbits := bits_le hwidth
  have hone : ¬ width.maximum < (1 : BitVec 64).toInt := by
    have hpos : 0 < width.bytes := bytes_pos width
    have hle : (2 : ℤ) ^ 1 ≤ 2 ^ (8 * width.bytes - 1) := pow_le_pow_right₀ (by decide) (by omega)
    rw [show (1 : BitVec 64).toInt = 1 from rfl, IntegerWidth.maximum]
    omega
  obtain ⟨rowIdx, size, _ | sel, hsel⟩ := chunk
  · refine if_congr (or_iff_left hone) rfl (congrArg some ?_)
    rw [BitVec.setWidth_ofNat_of_le hbits, sequenceValues_eq hwidth, IndexChunk.rows, map_map]
    rfl
  · refine if_congr (or_iff_left hone) rfl (congrArg some ?_)
    rw [IndexChunk.rows, Option.getD_some, map_map]
    refine map_congr_left fun idx _ => ?_
    rw [comp_apply, show (1 : BitVec 64) * BitVec.ofNat 64 idx = BitVec.ofNat 64 idx from
      BitVec.one_mul _, ← BitVec.ofNat_add, BitVec.setWidth_ofNat_of_le hbits]

end

/-! ## Limits -/

theorem indexKey_lt_iff {width : IntegerWidth} (v v' : BitVec (8 * width.bytes)) :
    width.indexKey v < width.indexKey v' ↔ v.toInt < v'.toInt :=
  (orderedCode_value ⟨.ascending, .nullsLast⟩ (.fixed (.signed width))).lt_iff (some v) (some v')

/-- An index in the positive range is the number of the row. -/
theorem isIndexOf_ofNat {n row : ℕ} (hrow : row < 2 ^ (n - 1)) (hn : 0 < n) :
    IsIndexOf row (BitVec.ofNat n row) := by
  have hpow : 2 ^ n = 2 * 2 ^ (n - 1) := by
    rw [← pow_succ', Nat.sub_add_cancel hn]
  have htoNat : (BitVec.ofNat n row).toNat = row := by
    exact Nat.mod_eq_of_lt (by omega)
  refine ⟨?_, htoNat⟩
  rw [BitVec.toInt_eq_toNat_of_lt (by rw [htoNat]; omega), htoNat]

theorem IndexChunk.lt_of_mem_rows {chunk : IndexChunk} {row : ℕ} (h : row ∈ chunk.rows) :
    chunk.rowIdx ≤ row ∧ row < chunk.rowIdx + chunk.size := by
  obtain ⟨i, hi, rfl⟩ := mem_map.1 h
  refine ⟨Nat.le_add_right _ _, Nat.add_lt_add_left ?_ _⟩
  rcases hsel : chunk.filterSel with _ | sel
  · rw [hsel] at hi
    exact mem_range.1 hi
  · rw [hsel] at hi
    exact chunk.lt_size sel hsel i hi

section

variable {width : IntegerWidth} (hwidth : width.bytes ≤ 8) {count : ℕ}
  (hcount : count ≤ 2 ^ (8 * width.bytes - 1)) {chunk : IndexChunk} (hchunk : chunk.rowIdx + chunk.size ≤ count)
include hwidth hcount hchunk

/-- A chunk with rows begins in the range of the type. -/
theorem IndexChunk.sink_of_le (hrs : chunk.rows ≠ []) :
    chunk.sink width = some (chunk.rows.map (BitVec.ofNat (8 * width.bytes))) := by
  obtain ⟨row, hrow⟩ := exists_mem_of_ne_nil _ hrs
  have hbeg : chunk.rowIdx < 2 ^ (8 * width.bytes - 1) := by
    have := IndexChunk.lt_of_mem_rows hrow
    omega
  have hlimit : 2 ^ (8 * width.bytes - 1) ≤ 2 ^ (64 - 1) :=
    Nat.pow_le_pow_right (by decide) (Nat.sub_le_sub_right (bits_le hwidth) 1)
  have hst : ¬ width.maximum < (BitVec.ofNat 64 chunk.rowIdx).toInt := by
    rw [(isIndexOf_ofNat (hbeg.trans_le hlimit) (by decide)).1, IntegerWidth.maximum, not_lt, Int.le_sub_one_iff]
    exact_mod_cast hbeg
  rw [chunk.sink_eq hwidth, if_neg hst]

/-- What has been sunk are the numbers of the rows. -/
theorem IndexChunk.forall₂_sink {values : List (BitVec (8 * width.bytes))} (h : chunk.sink width = some values) :
    List.Forall₂ IsIndexOf chunk.rows values := by
  rw [chunk.sink_eq hwidth] at h
  obtain rfl : chunk.rows.map (BitVec.ofNat (8 * width.bytes)) = values := by
    split_ifs at h
    exact Option.some_inj.1 h
  refine forall₂_map_right_iff.2 (forall₂_same.2 fun row hrow => isIndexOf_ofNat ?_ ?_)
  · exact (IndexChunk.lt_of_mem_rows hrow).2.trans_le (hchunk.trans hcount)
  · exact Nat.mul_pos (by decide) (bytes_pos width)

end

/-- The indexes stand for the rows if and only if these are below the limit of the signed type. -/
theorem indexesRows_width_iff {width : IntegerWidth} (hwidth : width.bytes ≤ 8) (count : ℕ) :
    IndexesRows count width ↔ count ≤ 2 ^ (8 * width.bytes - 1) := by
  constructor
  · intro h
    by_contra hcount
    -- the row at the limit, in a chunk of its own
    obtain ⟨values, -, hvals⟩ := h.sunk ⟨2 ^ (8 * width.bytes - 1), 1, none, fun _ h => nomatch h⟩
      (not_le.1 hcount) (cons_ne_nil _ _)
    obtain ⟨v, _, ⟨hv, -⟩, -⟩ := (forall₂_cons_left_iff (a := 2 ^ (8 * width.bytes - 1) + 0)).1 hvals
    have hlt := BitVec.toInt_lt (x := v)
    rw [hv, Nat.add_zero, Nat.cast_pow, Nat.cast_ofNat] at hlt
    exact lt_irrefl _ hlt
  · intro hcount
    refine ⟨fun chunk hchunk hrs => ?_, fun chunk chunk' hchunk hchk' values values' h h' p hp p' hp' => ?_⟩
    · have h := IndexChunk.sink_of_le hwidth hcount hchunk hrs
      exact ⟨_, h, IndexChunk.forall₂_sink hwidth hcount hchunk h⟩
    · have hidx := (forall₂_iff_zip.1 (IndexChunk.forall₂_sink hwidth hcount hchunk h)).2 hp
      have hidx' := (forall₂_iff_zip.1 (IndexChunk.forall₂_sink hwidth hcount hchk' h')).2 hp'
      rw [indexKey_lt_iff, hidx.1, hidx'.1, Nat.cast_lt]

/-- At most `2 ^ 31` rows have indexes, or as many as a tree with 64-bit numbers is made for. -/
theorem indexesRows_iff (count : ℕ) (forceExternal : Bool) : IndexesRows count (indexType count forceExternal) ↔
      if count < 2 ^ 32 - 1 ∧ forceExternal = false then count ≤ 2 ^ 31 else count ≤ 2 ^ 63 := by
  rw [indexType]
  by_cases h : count < 2 ^ 32 - 1 ∧ forceExternal = false
  · rw [if_pos h, if_pos h]
    exact indexesRows_width_iff (by decide) count
  · rw [if_neg h, if_neg h]
    exact indexesRows_width_iff (by decide) count

/-- The chunk behind `2 ^ 31` rows cannot be sunk. -/
theorem not_indexesRows : ¬ IndexesRows (2 ^ 31 + 1) (indexType (2 ^ 31 + 1) false) := by
  intro h
  obtain ⟨values, hvals, -⟩ := h.sunk ⟨2 ^ 31, 1, none, fun _ h => nomatch h⟩ le_rfl (cons_ne_nil _ _)
  exact absurd hvals (Option.some_ne_none values).symm

end WfOpt

import WfOpt.Basic
import WfOpt.Lib.BitStream
import WfOpt.Lib.Transition
import WfOpt.Storage.Compression.ValidityUncompressed

/-!
# Segments of validity bits

The validity of the rows of a column is appended to segments of memory, whose bits are all set at first: an append
clears the bits of rows that are not valid. When rows are taken back, their bits are set again. In every state that
appends and reverts reach, the bits of the rows are those appended, and all others are set
(`ValiditySegment.Inv`), so that what is read are the rows (`ValiditySegment.reachable_spec`).
-/

namespace WfOpt

open List

/-- A segment (`ColumnSegment`) with its memory, in entries, and the statistics of its rows. The size is
    in bytes. -/
structure ValiditySegment where
  segmentSize : ℕ
  start : ℕ
  count : ℕ
  data : ℕ → BitVec 64
  hasNull : Bool
  hasNoNull : Bool

namespace ValiditySegment

variable (seg : ValiditySegment)

/-- `max_tuples`: the rows that fit the segment, as entire vectors (`STANDARD_MASK_SIZE` is 256). -/
def maxTuples : ℕ := seg.segmentSize / 256 * standardVectorSize

/-! ## Appends -/

/-- An entry is written, if it is in the segment. -/
def writeEntry (entry : ℕ) (value : BitVec 64) : Option ValiditySegment :=
  if 8 * entry + 8 ≤ seg.segmentSize then some { seg with data := Function.update seg.data entry value }
  else none

/-- `SetInvalidUnsafe` -/
def setInvalidUnsafe (row : ℕ) : Option ValiditySegment :=
  seg.writeEntry (row / 64) (seg.data (row / 64) &&& ~~~(1#64 <<< (row % 64)))

/-- `SetValid` -/
def setValid (row : ℕ) : Option ValiditySegment :=
  seg.writeEntry (row / 64) (seg.data (row / 64) ||| 1#64 <<< (row % 64))

/-- An entry of which the bytes in `[b, e)` are set to `0xFF`. -/
def memsetEntry (b e entry : ℕ) (value : BitVec 64) : BitVec 64 := (range 8).foldl (fun value byte =>
    if b ≤ 8 * entry + byte ∧ 8 * entry + byte < e then value ||| 0xFF#64 <<< (8 * byte) else value) value

/-- `memset` of the bytes in `[b, e)` with `0xFF`, if they are in the segment. -/
def memset (b e : ℕ) : Option ValiditySegment := if b ≤ e ∧ e ≤ seg.segmentSize then
    some { seg with data := fun entry => memsetEntry b e entry (seg.data entry) }
  else none

/-- `ValidityInitSegment`, of a new segment. -/
def initSegment (segmentSize start : ℕ) (memory : ℕ → BitVec 64) : Option ValiditySegment :=
  memset ⟨segmentSize, start, 0, memory, false, false⟩ 0 segmentSize

/-- A row of `ValidityAppend`. -/
def appendRow (sel : ℕ → ℕ) (validity : ValidityMask) (offset : ℕ) (seg : ValiditySegment) (i : ℕ) :
    Option ValiditySegment :=
  if !validity.rowIsValid (sel (offset + i)) then
    (fun seg => { seg with hasNull := true }) <$> seg.setInvalidUnsafe (seg.count + i)
  else some { seg with hasNoNull := true }

/-- `ValidityAppend`: the segment, and the number of rows that were appended. -/
def append (sel : ℕ → ℕ) (validity : ValidityMask) (offset vcount : ℕ) : Option (ValiditySegment × ℕ) :=
  let appendCount := min vcount (seg.maxTuples - seg.count)
  if validity.validityMask.isNone then
    some ({ seg with count := seg.count + appendCount, hasNoNull := true }, appendCount)
  else
    (fun seg => ({ seg with count := seg.count + appendCount }, appendCount)) <$>
      (range appendCount).foldlM (appendRow sel validity offset) seg

/-- `ValidityRevertAppend` -/
def revertBits (startRow : ℕ) : Option ValiditySegment := let startBit := startRow - seg.start
  if startBit % 8 ≠ 0 then do
    let bytePos := startBit / 8
    let bitEnd := (bytePos + 1) * 8
    let seg ← (range' startBit (bitEnd - startBit)).foldlM setValid seg
    seg.memset (bitEnd / 8) seg.segmentSize
  else seg.memset (startBit / 8) seg.segmentSize

/-- `ColumnSegment::RevertAppend` -/
def revertAppend (startRow : ℕ) : Option ValiditySegment :=
  (fun seg => { seg with count := startRow - seg.start }) <$> seg.revertBits startRow

/-! ## Scans -/

/-- `GetRelativeIndex` -/
def relativeIndex (rowIndex : ℕ) : ℕ := rowIndex - seg.start

/-- `ValidityScanPartial` -/
def scanPartial (rowIndex scanCount : ℕ) (result : ValidityMask) (resultOffset : ℕ) : ValidityMask :=
  ValidityUncompressed.unalignedScan seg.data (seg.relativeIndex rowIndex) result resultOffset scanCount

/-- `ValidityScan` -/
def scan (rowIndex scanCount : ℕ) (result : ValidityMask) : ValidityMask := let start := seg.relativeIndex rowIndex
  if start % 64 = 0 then ValidityUncompressed.alignedScan seg.data start result scanCount
  else seg.scanPartial rowIndex scanCount result 0

/-- The mask of the rows of the segment. -/
def mask : ValidityMask := ⟨some seg.data⟩

/-- `ValiditySelect` -/
def select (rowIndex : ℕ) (sel : ℕ → ℕ) (selCount : ℕ) (result : ValidityMask) : ValidityMask :=
  let start := seg.relativeIndex rowIndex
  (range selCount).foldl (fun result i =>
    if !seg.mask.rowIsValid (start + sel i) then result.setInvalid i else result) result

/-- `ValidityFetchRow` -/
def fetchRow (rowId : ℕ) (result : ValidityMask) (resultIdx : ℕ) : ValidityMask :=
  if !seg.mask.rowIsValid rowId then result.setInvalid resultIdx else result

/-! ## Writes -/

variable {seg} {seg' : ValiditySegment}

/-- What a write of bits leaves as it is. -/
structure SameShape (seg seg' : ValiditySegment) : Prop where
  segmentSize_eq : seg'.segmentSize = seg.segmentSize
  start_eq : seg'.start = seg.start
  count_eq : seg'.count = seg.count

theorem SameShape.trans {seg'' : ValiditySegment} (h : SameShape seg seg') (h' : SameShape seg' seg'') :
    SameShape seg seg'' :=
  ⟨h'.1.trans h.1, h'.2.trans h.2, h'.3.trans h.3⟩

theorem setInvalidUnsafe_spec {row : ℕ} (hrow : 8 * (row / 64) + 8 ≤ seg.segmentSize) :
    ∃ seg', seg.setInvalidUnsafe row = some seg' ∧ SameShape seg seg' ∧
      (seg'.hasNull = seg.hasNull ∧ seg'.hasNoNull = seg.hasNoNull) ∧
      ∀ i, seg'.mask.rowIsValid i = (seg.mask.rowIsValid i && !decide (i = row)) := by
  rw [setInvalidUnsafe, writeEntry, if_pos hrow]
  exact ⟨_, rfl, ⟨rfl, rfl, rfl⟩, ⟨rfl, rfl⟩, fun i => seg.mask.rowIsValid_setInvalid row i⟩

theorem setValid_spec {row : ℕ} (hrow : 8 * (row / 64) + 8 ≤ seg.segmentSize) :
    ∃ seg', seg.setValid row = some seg' ∧ SameShape seg seg' ∧
      (seg'.hasNull = seg.hasNull ∧ seg'.hasNoNull = seg.hasNoNull) ∧
      ∀ i, seg'.mask.rowIsValid i = (seg.mask.rowIsValid i || decide (i = row)) := by
  rw [setValid, writeEntry, if_pos hrow]
  exact ⟨_, rfl, ⟨rfl, rfl, rfl⟩, ⟨rfl, rfl⟩, fun i => seg.mask.rowIsValid_setValid row i⟩

theorem getLsbD_memsetEntry (b e entry : ℕ) (value : BitVec 64) {k : ℕ} (hk : k < 64) :
    (memsetEntry b e entry value).getLsbD k =
      (value.getLsbD k || decide (8 * b ≤ 64 * entry + k ∧ 64 * entry + k < 8 * e)) := by
  have hbs : ∀ n ≤ 8, ((range n).foldl (fun value byte =>
      if b ≤ 8 * entry + byte ∧ 8 * entry + byte < e then value ||| 0xFF#64 <<< (8 * byte) else value)
        value).getLsbD k = (value.getLsbD k ||
          decide (k / 8 < n ∧ b ≤ 8 * entry + k / 8 ∧ 8 * entry + k / 8 < e)) := by
    intro n hn
    induction n with
    | zero => rw [decide_eq_false fun h => absurd h.1 (Nat.not_lt_zero _), Bool.or_false]; rfl
    | succ n ih =>
      rw [range_succ, foldl_append, foldl_cons, foldl_nil]
      by_cases hrng : b ≤ 8 * entry + n ∧ 8 * entry + n < e
      · rw [if_pos hrng, BitVec.getLsbD_or, ih (by omega), getLsbD_byte hn hk, Bool.or_assoc, ← Bool.decide_or]
        refine congrArg (Bool.or _) (decide_eq_decide.2 ?_)
        omega
      · rw [if_neg hrng, ih (by omega)]
        refine congrArg (Bool.or _) (decide_eq_decide.2 ?_)
        constructor
        · exact fun h => ⟨h.1.trans (Nat.lt_succ_self n), h.2⟩
        · intro h
          omega
  rw [memsetEntry, hbs 8 le_rfl]
  refine congrArg (Bool.or _) (decide_eq_decide.2 ?_)
  omega

theorem memset_spec {b e : ℕ} (hb : b ≤ e) (he : e ≤ seg.segmentSize) :
    ∃ seg', seg.memset b e = some seg' ∧ SameShape seg seg' ∧
      (seg'.hasNull = seg.hasNull ∧ seg'.hasNoNull = seg.hasNoNull) ∧
      ∀ i, seg'.mask.rowIsValid i = (seg.mask.rowIsValid i || decide (8 * b ≤ i ∧ i < 8 * e)) := by
  rw [memset, if_pos ⟨hb, he⟩]
  refine ⟨_, rfl, ⟨rfl, rfl, rfl⟩, ⟨rfl, rfl⟩, fun i => ?_⟩
  have hbit := getLsbD_memsetEntry b e (i / 64) (seg.data (i / 64)) (Nat.mod_lt i (by decide : 0 < 64))
  rw [Nat.div_add_mod] at hbit
  exact hbit

theorem foldlM_setValid (l : List ℕ) : ∀ seg : ValiditySegment, (∀ row ∈ l, 8 * (row / 64) + 8 ≤ seg.segmentSize) →
      ∃ seg', l.foldlM setValid seg = some seg' ∧ SameShape seg seg' ∧
        (seg'.hasNull = seg.hasNull ∧ seg'.hasNoNull = seg.hasNoNull) ∧
        ∀ i, seg'.mask.rowIsValid i = (seg.mask.rowIsValid i || decide (i ∈ l)) := by
  induction l with
  | nil =>
    intro seg _
    exact ⟨seg, rfl, ⟨rfl, rfl, rfl⟩, ⟨rfl, rfl⟩, fun i => (Bool.or_false _).symm⟩
  | cons row l ih =>
    intro seg hl
    obtain ⟨seg₁, hset, hshp, hstats, hbits⟩ := setValid_spec (hl row mem_cons_self)
    obtain ⟨seg₂, hrst, hshp', hstats', hbits'⟩ := ih seg₁ fun row' hrow' => by
      rw [hshp.segmentSize_eq]
      exact hl row' (mem_cons_of_mem row hrow')
    refine ⟨seg₂, ?_, hshp.trans hshp', ⟨hstats'.1.trans hstats.1, hstats'.2.trans hstats.2⟩, fun i => ?_⟩
    · rw [foldlM_cons, hset]
      exact hrst
    · rw [hbits', hbits, Bool.or_assoc, ← Bool.decide_or]
      exact congrArg (Bool.or _) (decide_eq_decide.2 mem_cons.symm)

section

variable (sel : ℕ → ℕ) (validity : ValidityMask) (offset : ℕ)

theorem appendRow_spec {i : ℕ}
    (hi : 8 * ((seg.count + i) / 64) + 8 ≤ seg.segmentSize) :
    ∃ seg', appendRow sel validity offset seg i = some seg' ∧ SameShape seg seg' ∧
      (seg'.hasNull = (seg.hasNull || !validity.rowIsValid (sel (offset + i))) ∧
        seg'.hasNoNull = (seg.hasNoNull || validity.rowIsValid (sel (offset + i)))) ∧
      ∀ row, seg'.mask.rowIsValid row = (seg.mask.rowIsValid row &&
        !(decide (row = seg.count + i) && !validity.rowIsValid (sel (offset + i)))) := by
  rw [appendRow]
  cases validity.rowIsValid (sel (offset + i)) with
  | true =>
    refine ⟨_, rfl, ⟨rfl, rfl, rfl⟩, ⟨(Bool.or_false _).symm, (Bool.or_true _).symm⟩, fun row => ?_⟩
    rw [Bool.not_true, Bool.and_false, Bool.not_false, Bool.and_true]
    rfl
  | false =>
    obtain ⟨seg', hset, hshp, hstats, hbits⟩ := setInvalidUnsafe_spec hi
    refine ⟨{ seg' with hasNull := true }, ?_, ⟨hshp.1, hshp.2, hshp.3⟩,
      ⟨(Bool.or_true _).symm, hstats.2.trans (Bool.or_false _).symm⟩, fun row => ?_⟩
    · rw [Bool.not_false, if_pos rfl, hset]
      rfl
    · rw [Bool.not_false, Bool.and_true]
      exact hbits row

theorem foldlM_appendRow (l : List ℕ) :
    ∀ seg : ValiditySegment, (∀ i ∈ l, 8 * ((seg.count + i) / 64) + 8 ≤ seg.segmentSize) →
      ∃ seg', l.foldlM (appendRow sel validity offset) seg = some seg' ∧ SameShape seg seg' ∧
        (seg'.hasNull = (seg.hasNull || l.any fun i => !validity.rowIsValid (sel (offset + i))) ∧
          seg'.hasNoNull = (seg.hasNoNull || l.any fun i => validity.rowIsValid (sel (offset + i)))) ∧
        ∀ row, seg'.mask.rowIsValid row = (seg.mask.rowIsValid row &&
          !l.any fun i => decide (row = seg.count + i) && !validity.rowIsValid (sel (offset + i))) := by
  induction l with
  | nil =>
    intro seg _
    refine ⟨seg, rfl, ⟨rfl, rfl, rfl⟩, ⟨(Bool.or_false _).symm, (Bool.or_false _).symm⟩, fun row => ?_⟩
    exact (Bool.and_true _).symm
  | cons i l ih =>
    intro seg hl
    obtain ⟨seg₁, hrow, hshp, hstats, hbits⟩ := appendRow_spec sel validity offset (hl i mem_cons_self)
    obtain ⟨seg₂, hrst, hshp', hstats', hbits'⟩ := ih seg₁ fun i' hi' => by
      rw [hshp.segmentSize_eq, hshp.count_eq]
      exact hl i' (mem_cons_of_mem i hi')
    refine ⟨seg₂, ?_, hshp.trans hshp', ⟨?_, ?_⟩, fun row => ?_⟩
    · rw [foldlM_cons, hrow]
      exact hrst
    · rw [hstats'.1, hstats.1, any_cons, Bool.or_assoc]
    · rw [hstats'.2, hstats.2, any_cons, Bool.or_assoc]
    · rw [hbits', hbits, any_cons, Bool.not_or, Bool.and_assoc, hshp.count_eq]

end

/-! ## Runs -/

/-- The rows that are appended. -/
def appended (sel : ℕ → ℕ) (validity : ValidityMask) (offset n : ℕ) : List Bool :=
  (range n).map fun i => validity.rowIsValid (sel (offset + i))

/-- The bits of a segment are those of the rows, and all others are set. The statistics cover the
    rows. -/
structure Inv (seg : ValiditySegment) (rows : List Bool) : Prop where
  count_eq : seg.count = rows.length
  le : rows.length ≤ seg.maxTuples
  bits : ∀ i < 8 * seg.segmentSize, seg.mask.rowIsValid i = rows.getD i true
  hasNull : false ∈ rows → seg.hasNull = true
  hasNoNull : true ∈ rows → seg.hasNoNull = true

variable {rows : List Bool}

/-- All bits are set in a new segment. -/
theorem initSegment_spec (segmentSize start : ℕ) (memory : ℕ → BitVec 64) :
    ∃ seg, initSegment segmentSize start memory = some seg ∧ seg.segmentSize = segmentSize ∧
      seg.start = start ∧ seg.Inv [] := by
  obtain ⟨seg, hinit, hshp, -, hbits⟩ :=
    @memset_spec ⟨segmentSize, start, 0, memory, false, false⟩ 0 segmentSize (Nat.zero_le _) le_rfl
  refine ⟨seg, hinit, hshp.segmentSize_eq, hshp.start_eq, hshp.count_eq, Nat.zero_le _, fun i hi => ?_,
    fun h => absurd h not_mem_nil, fun h => absurd h not_mem_nil⟩
  rw [hshp.segmentSize_eq] at hi
  rw [hbits, decide_eq_true ⟨Nat.zero_le _, hi⟩, Bool.or_true]
  rfl

section Appended

variable (sel : ℕ → ℕ) (validity : ValidityMask) (offset n : ℕ)

@[simp] theorem length_appended : (appended sel validity offset n).length = n := by
  rw [appended, length_map, length_range]

theorem mem_appended {valid : Bool} : valid ∈ appended sel validity offset n ↔
    ∃ i < n, validity.rowIsValid (sel (offset + i)) = valid := by
  simp only [appended, mem_map, mem_range]

theorem getD_append_appended (rows : List Bool) (i : ℕ) :
    (rows ++ appended sel validity offset n).getD i true = (rows.getD i true && !(range n).any fun j =>
        decide (i = rows.length + j) && !validity.rowIsValid (sel (offset + j))) := by
  rcases Nat.lt_or_ge i rows.length with hlt | hge
  · have hno : ((range n).any fun j =>
        decide (i = rows.length + j) && !validity.rowIsValid (sel (offset + j))) = false := by
      refine any_eq_false.2 fun j _ => ?_
      rw [decide_eq_false (by omega), Bool.false_and]
      exact Bool.false_ne_true
    rw [getD_append _ _ _ _ hlt, hno, Bool.not_false, Bool.and_true]
  · obtain ⟨k, rfl⟩ := Nat.exists_eq_add_of_le hge
    rw [getD_append_right _ _ _ _ hge, Nat.add_sub_cancel_left, getD_eq_default _ _ hge, Bool.true_and]
    rcases Nat.lt_or_ge k n with hk | hk
    · have hone : ((range n).any fun j => decide (rows.length + k = rows.length + j) &&
          !validity.rowIsValid (sel (offset + j))) = !validity.rowIsValid (sel (offset + k)) := by
        rw [Bool.eq_iff_iff, any_eq_true]
        constructor
        · rintro ⟨j, -, hj⟩
          rw [Bool.and_eq_true, decide_eq_true_iff, Nat.add_left_cancel_iff] at hj
          rw [hj.1]
          exact hj.2
        · intro hvld
          exact ⟨k, mem_range.2 hk, by rw [decide_eq_true rfl, hvld]; rfl⟩
      rw [hone, Bool.not_not, appended, getD_eq_getElem _ _ (by rw [length_map, length_range]; exact hk),
        getElem_map, getElem_range]
    · have hno : ((range n).any fun j => decide (rows.length + k = rows.length + j) &&
          !validity.rowIsValid (sel (offset + j))) = false := by
        refine any_eq_false.2 fun j hj => ?_
        have hj := mem_range.1 hj
        rw [decide_eq_false (by omega), Bool.false_and]
        exact Bool.false_ne_true
      rw [hno, getD_eq_default _ _ (by rw [length_appended]; exact hk), Bool.not_false]

end Appended

/-- The number of rows that are appended is cut off by the capacity. -/
theorem Inv.append (h : seg.Inv rows) (sel : ℕ → ℕ) (validity : ValidityMask) (offset vcount : ℕ) :
    ∃ seg' n, seg.append sel validity offset vcount = some (seg', n) ∧
      n = min vcount (seg.maxTuples - rows.length) ∧ seg'.segmentSize = seg.segmentSize ∧
      seg'.start = seg.start ∧ seg'.Inv (rows ++ appended sel validity offset n) := by
  have hle := h.le
  rw [ValiditySegment.append, h.count_eq]
  generalize hn : min vcount (seg.maxTuples - rows.length) = n
  have hcap : (rows ++ appended sel validity offset n).length ≤ seg.maxTuples := by
    rw [length_append, length_appended]
    omega
  have hlen : rows.length + n = (rows ++ appended sel validity offset n).length := by
    rw [length_append, length_appended]
  by_cases hno : validity.validityMask.isNone
  · -- without NULLs, nothing is written
    rw [if_pos hno]
    have hvld : ∀ i, validity.rowIsValid i = true := by
      obtain ⟨_ | entries⟩ := validity
      · exact ValidityMask.rowIsValid_new
      · exact absurd hno Bool.false_ne_true
    refine ⟨_, n, rfl, rfl, rfl, rfl, hlen, hcap, fun i hi => ?_, fun hfls => ?_, fun _ => rfl⟩
    · have hall : ((range n).any fun j =>
          decide (i = rows.length + j) && !validity.rowIsValid (sel (offset + j))) = false := by
        refine any_eq_false.2 fun j _ => ?_
        rw [hvld, Bool.not_true, Bool.and_false]
        exact Bool.false_ne_true
      rw [getD_append_appended, hall, Bool.not_false, Bool.and_true]
      exact h.bits i hi
    · rcases mem_append.1 hfls with hfls | hfls
      · exact h.hasNull hfls
      · obtain ⟨i, -, hi⟩ := (mem_appended sel validity offset n).1 hfls
        exact absurd ((hvld _).symm.trans hi) (by decide)
  · rw [if_neg hno]
    obtain ⟨seg', hloop, hshp, hstats, hbits⟩ := foldlM_appendRow sel validity offset (range n) seg
      fun i hi => by
        have hi := mem_range.1 hi
        have hcnt := h.count_eq
        rw [maxTuples, standardVectorSize] at hn hle
        omega
    rw [hloop]
    refine ⟨_, n, rfl, rfl, hshp.segmentSize_eq, hshp.start_eq, ?_, ?_, fun i hi => ?_, fun hfls => ?_,
      fun htrue => ?_⟩
    · exact (congrArg (· + n) (hshp.count_eq.trans h.count_eq)).trans hlen
    · rw [maxTuples, hshp.segmentSize_eq]
      exact hcap
    · rw [getD_append_appended, ← h.bits i (by rw [← hshp.segmentSize_eq]; exact hi), ← h.count_eq]
      exact hbits i
    · rw [hstats.1, Bool.or_eq_true, any_eq_true]
      rcases mem_append.1 hfls with hfls | hfls
      · exact .inl (h.hasNull hfls)
      · obtain ⟨i, hi, hvld⟩ := (mem_appended sel validity offset n).1 hfls
        exact .inr ⟨i, mem_range.2 hi, by rw [hvld]; rfl⟩
    · rw [hstats.2, Bool.or_eq_true, any_eq_true]
      rcases mem_append.1 htrue with htrue | htrue
      · exact .inl (h.hasNoNull htrue)
      · obtain ⟨i, hi, hvld⟩ := (mem_appended sel validity offset n).1 htrue
        exact .inr ⟨i, mem_range.2 hi, hvld⟩

/-- The bits from a row on are set: up to the next byte one by one, and from there on as bytes. -/
theorem revertBits_spec {startRow : ℕ} (hcap : startRow - seg.start ≤ seg.maxTuples) :
    ∃ seg', seg.revertBits startRow = some seg' ∧ SameShape seg seg' ∧
      (seg'.hasNull = seg.hasNull ∧ seg'.hasNoNull = seg.hasNoNull) ∧
      ∀ i < 8 * seg.segmentSize, seg'.mask.rowIsValid i =
        (seg.mask.rowIsValid i || decide (startRow - seg.start ≤ i)) := by
  rw [revertBits]
  rw [maxTuples, standardVectorSize] at hcap
  dsimp only
  generalize startRow - seg.start = startBit at hcap
  by_cases hby : startBit % 8 ≠ 0
  · rw [if_pos hby]
    obtain ⟨seg₁, hset, hshp, hstats, hbits⟩ := foldlM_setValid
      (range' startBit ((startBit / 8 + 1) * 8 - startBit)) seg fun row hrow => by
        have hrow := mem_range'_1.1 hrow
        omega
    have hsz := hshp.segmentSize_eq
    obtain ⟨seg₂, hmemset, hshp', hstats', hbits'⟩ :=
      @memset_spec seg₁ ((startBit / 8 + 1) * 8 / 8) seg₁.segmentSize (by omega) le_rfl
    refine ⟨seg₂, ?_, hshp.trans hshp', ⟨hstats'.1.trans hstats.1, hstats'.2.trans hstats.2⟩, fun i hi => ?_⟩
    · rw [hset]
      exact hmemset
    · rw [hbits', hbits, Bool.or_assoc, ← Bool.decide_or]
      refine congrArg (Bool.or _) (decide_eq_decide.2 ?_)
      rw [mem_range'_1]
      omega
  · rw [if_neg hby]
    obtain ⟨seg', hmemset, hshp, hstats, hbits⟩ := @memset_spec seg (startBit / 8) seg.segmentSize (by omega) le_rfl
    refine ⟨seg', hmemset, hshp, hstats, fun i hi => ?_⟩
    rw [hbits]
    refine congrArg (Bool.or _) (decide_eq_decide.2 ?_)
    omega

/-- The bits of the rows that are taken back are set again. -/
theorem Inv.revertAppend (h : seg.Inv rows) {startRow : ℕ} (hle : startRow ≤ seg.start + rows.length) :
    ∃ seg', seg.revertAppend startRow = some seg' ∧ seg'.segmentSize = seg.segmentSize ∧
      seg'.start = seg.start ∧ seg'.Inv (rows.take (startRow - seg.start)) := by
  have hrs := h.le
  obtain ⟨seg', hrev, hshp, hstats, hbits⟩ := @revertBits_spec seg startRow (by omega)
  rw [ValiditySegment.revertAppend, hrev]
  refine ⟨_, rfl, hshp.segmentSize_eq, hshp.start_eq, ?_, ?_, fun i hi => ?_, fun hfls => ?_, fun htrue => ?_⟩
  · rw [length_take, min_eq_left (by omega)]
    exact congrArg (startRow - ·) hshp.start_eq
  · rw [length_take, maxTuples, hshp.segmentSize_eq]
    exact (min_le_right _ _).trans h.le
  · have hi : i < 8 * seg.segmentSize := by
      rw [← hshp.segmentSize_eq]
      exact hi
    refine (hbits i hi).trans ?_
    rw [h.bits i hi]
    by_cases hlt : startRow - seg.start ≤ i
    · have hlen : (rows.take (startRow - seg.start)).length ≤ i := by
        rw [length_take]
        exact (min_le_left _ _).trans hlt
      rw [decide_eq_true hlt, Bool.or_true, getD_eq_default _ _ hlen]
    · rw [decide_eq_false hlt, Bool.or_false, getD_eq_getElem?_getD, getD_eq_getElem?_getD,
        getElem?_take_of_lt (not_le.1 hlt)]
  · exact hstats.1.trans (h.hasNull (mem_of_mem_take hfls))
  · exact hstats.2.trans (h.hasNoNull (mem_of_mem_take htrue))

/-- A state of a run: the segment, and the rows that have been appended and not taken back. -/
abbrev RunState := ValiditySegment × List Bool

/-- A new segment. -/
def Init (s : RunState) : Prop :=
  ∃ segmentSize start memory, initSegment segmentSize start memory = some s.1 ∧ s.2 = []

/-- Rows are appended, or the rows from one on are taken back. -/
inductive Step : RunState → RunState → Prop
  | append {seg seg' : ValiditySegment} {rows : List Bool} (sel : ℕ → ℕ) (validity : ValidityMask)
      (offset vcount : ℕ) {n : ℕ} (h : seg.append sel validity offset vcount = some (seg', n)) :
      Step (seg, rows) (seg', rows ++ appended sel validity offset n)
  | revert {seg seg' : ValiditySegment} {rows : List Bool} {startRow : ℕ} (hstart : seg.start ≤ startRow)
      (hle : startRow ≤ seg.start + seg.count) (h : seg.revertAppend startRow = some seg') :
      Step (seg, rows) (seg', rows.take (startRow - seg.start))

/-- The bits stay those of the rows in every run. -/
theorem inv_of_reachable {s : RunState} (h : Reachable Init Step s) : s.1.Inv s.2 := by
  refine @Reachable.invariant _ _ _ (fun s : RunState => s.1.Inv s.2) ?_ ?_ _ h
  · rintro ⟨seg, rows⟩ ⟨segmentSize, start, memory, hinit, rfl⟩
    obtain ⟨seg', hinit', -, -, hinv⟩ := initSegment_spec segmentSize start memory
    rw [hinit] at hinit'
    exact Option.some.inj hinit' ▸ hinv
  · rintro s s' - hinv hstep
    cases hstep with
    | append sel validity offset vcount happ =>
      obtain ⟨seg', n, happ', -, -, -, hinv'⟩ := hinv.append sel validity offset vcount
      obtain ⟨rfl, rfl⟩ := Prod.mk.inj (Option.some.inj (happ.symm.trans happ'))
      exact hinv'
    | revert hstart hle hrev =>
      obtain ⟨seg', hrev', -, -, hinv'⟩ := hinv.revertAppend (hle.trans_eq (by rw [hinv.count_eq]))
      obtain rfl := Option.some.inj (hrev.symm.trans hrev')
      exact hinv'

/-! ## Reads -/

/-- What is read are the rows. -/
structure ReadsRows (seg : ValiditySegment) (rows : List Bool) : Prop where
  scan : ∀ (rowIndex scanCount : ℕ) (result : ValidityMask), seg.start ≤ rowIndex →
    rowIndex + scanCount ≤ seg.start + seg.count → (∀ i < scanCount, result.rowIsValid i = true) →
      ∀ i < scanCount, some ((seg.scan rowIndex scanCount result).rowIsValid i) =
        rows[rowIndex - seg.start + i]?
  select : ∀ (rowIndex : ℕ) (sel : ℕ → ℕ) (selCount : ℕ) (result : ValidityMask), seg.start ≤ rowIndex →
    (∀ i < selCount, rowIndex + sel i < seg.start + seg.count) → (∀ i < selCount, result.rowIsValid i = true) →
      ∀ i < selCount, some ((seg.select rowIndex sel selCount result).rowIsValid i) =
        rows[rowIndex - seg.start + sel i]?
  fetchRow : ∀ (rowId : ℕ) (result : ValidityMask) (resultIdx : ℕ), rowId < seg.count →
    result.rowIsValid resultIdx = true →
      some ((seg.fetchRow rowId result resultIdx).rowIsValid resultIdx) = rows[rowId]?

theorem Inv.bit_eq (h : seg.Inv rows) {i : ℕ} (hi : i < seg.count) : some (seg.mask.rowIsValid i) = rows[i]? := by
  have hcnt := h.count_eq
  have hle := h.le
  rw [maxTuples, standardVectorSize] at hle
  have hlt : i < rows.length := hcnt ▸ hi
  rw [h.bits i (by omega), getD_eq_getElem _ _ hlt, getElem?_eq_getElem hlt]

theorem rowIsValid_scan {rowIndex scanCount : ℕ} {result : ValidityMask}
    (hres : ∀ i < scanCount, result.rowIsValid i = true) {i : ℕ} (hi : i < scanCount) :
    (seg.scan rowIndex scanCount result).rowIsValid i = seg.mask.rowIsValid (rowIndex - seg.start + i) := by
  rw [ValiditySegment.scan]
  by_cases halig : seg.relativeIndex rowIndex % 64 = 0
  · rw [if_pos halig]
    exact ValidityUncompressed.rowIsValid_alignedScan halig result hi
  · rw [if_neg halig]
    have hvld : ∀ i < scanCount, result.rowIsValid (0 + i) = true := fun i hi => by
      rw [Nat.zero_add]
      exact hres i hi
    have hbit := @ValidityUncompressed.rowIsValid_unalignedScan_of_lt seg.data
      (seg.relativeIndex rowIndex) 0 scanCount result hvld i hi
    rw [Nat.zero_add] at hbit
    exact hbit

theorem rowIsValid_select (rowIndex : ℕ) (sel : ℕ → ℕ) (result : ValidityMask) (n j : ℕ) :
    (seg.select rowIndex sel n result).rowIsValid j = (result.rowIsValid j &&
      (!decide (j < n) || seg.mask.rowIsValid (rowIndex - seg.start + sel j))) := by
  rw [ValiditySegment.select]
  induction n with
  | zero => rw [decide_eq_false (Nat.not_lt_zero j), Bool.not_false, Bool.true_or, Bool.and_true]; rfl
  | succ n ih =>
    rw [range_succ, foldl_append, foldl_cons, foldl_nil]
    have hlst : decide (j < n + 1) = (decide (j < n) || decide (j = n)) := by
      rw [← Bool.decide_or]
      exact decide_eq_decide.2 Nat.lt_succ_iff_lt_or_eq
    rw [hlst]
    cases hsrc : seg.mask.rowIsValid (seg.relativeIndex rowIndex + sel n) with
    | true =>
      rw [Bool.not_true, if_neg Bool.false_ne_true, ih]
      by_cases hj : j = n
      · rw [relativeIndex, ← hj] at hsrc
        rw [hsrc, Bool.or_true, Bool.or_true]
      · rw [decide_eq_false hj, Bool.or_false]
    | false =>
      rw [Bool.not_false, if_pos rfl, ValidityMask.rowIsValid_setInvalid, ih]
      by_cases hj : j = n
      · rw [relativeIndex, ← hj] at hsrc
        rw [hsrc, decide_eq_true hj, Bool.not_true, Bool.and_false, Bool.or_true, Bool.not_true,
          Bool.or_false, Bool.and_false]
      · rw [decide_eq_false hj, Bool.not_false, Bool.and_true, Bool.or_false]

theorem rowIsValid_fetchRow (rowId : ℕ) (result : ValidityMask) (resultIdx : ℕ) :
    (seg.fetchRow rowId result resultIdx).rowIsValid resultIdx =
      (result.rowIsValid resultIdx && seg.mask.rowIsValid rowId) := by
  rw [ValiditySegment.fetchRow]
  cases seg.mask.rowIsValid rowId with
  | true => exact (Bool.and_true _).symm
  | false =>
    rw [Bool.not_false, if_pos rfl, ValidityMask.rowIsValid_setInvalid, decide_eq_true rfl, Bool.not_true]

theorem Inv.readsRows (h : seg.Inv rows) : seg.ReadsRows rows where
  scan rowIndex scanCount result hstart hle hres i hi := by
    rw [rowIsValid_scan hres hi]
    exact h.bit_eq (by omega)
  select rowIndex sel selCount result hstart hle hres i hi := by
    have hlt := hle i hi
    rw [rowIsValid_select, hres i hi, decide_eq_true hi, Bool.not_true, Bool.false_or, Bool.true_and]
    exact h.bit_eq (by omega)
  fetchRow rowId result resultIdx hlt hres := by
    rw [rowIsValid_fetchRow, hres, Bool.true_and]
    exact h.bit_eq hlt

/-- In every run, the bits below the count are those of the rows appended and not taken back, all others are set, and
    what is scanned, selected or fetched are the rows. -/
theorem reachable_spec {s : RunState} (h : Reachable Init Step s) : s.1.count = s.2.length ∧
      (∀ i < s.1.count, some (s.1.mask.rowIsValid i) = s.2[i]?) ∧
      (∀ i, s.1.count ≤ i → i < 8 * s.1.segmentSize → s.1.mask.rowIsValid i = true) ∧
      (∀ sel validity offset vcount, ∃ seg', s.1.append sel validity offset vcount =
        some (seg', min vcount (s.1.maxTuples - s.1.count))) ∧
      (∀ startRow, s.1.start ≤ startRow → startRow ≤ s.1.start + s.1.count →
        ∃ seg', s.1.revertAppend startRow = some seg') ∧
      s.1.ReadsRows s.2 := by
  have hinv := inv_of_reachable h
  refine ⟨hinv.count_eq, fun i hi => hinv.bit_eq hi, fun i hi hlt => ?_, fun sel validity offset vcount => ?_,
    fun startRow hstart hle => ?_, hinv.readsRows⟩
  · rw [hinv.bits i hlt, getD_eq_default _ _ (hinv.count_eq ▸ hi)]
  · obtain ⟨seg', n, happ, hn, -⟩ := hinv.append sel validity offset vcount
    rw [happ, hn, hinv.count_eq]
    exact ⟨seg', rfl⟩
  · obtain ⟨seg', hrev, -⟩ := hinv.revertAppend (hle.trans_eq (by rw [hinv.count_eq]))
    exact ⟨seg', hrev⟩

/-- A valid row and one that is not are appended, and the latter is taken back. -/
theorem reachable_spec_reverted : ∃ s : RunState, Reachable Init Step s ∧ s.2 = [true] ∧ s.1.ReadsRows s.2 := by
  obtain ⟨seg₀, hinit, hsz, hstart, hinv₀⟩ := initSegment_spec 256 0 fun _ => 0
  obtain ⟨seg₁, n, happ, hn, -, hst₁, hinv₁⟩ := hinv₀.append (fun i => i) ⟨some fun _ => 1⟩ 0 2
  obtain rfl : n = 2 := by
    rw [hn, maxTuples, hsz]
    rfl
  rw [hstart] at hst₁
  obtain ⟨seg₂, hrev, -, -, -⟩ := @Inv.revertAppend seg₁ _ hinv₁ 1 (by rw [hst₁]; decide)
  have hreach : Reachable Init Step (seg₀, []) := .start ⟨256, 0, fun _ => 0, hinit, rfl⟩
  have hrun := (hreach.step (.append _ _ _ _ happ)).step (.revert (by rw [hst₁]; exact Nat.zero_le 1)
    (by rw [hst₁, hinv₁.count_eq]; decide) hrev)
  refine ⟨_, hrun, ?_, (reachable_spec hrun).2.2.2.2.2⟩
  rw [hst₁]
  rfl

end ValiditySegment

end WfOpt

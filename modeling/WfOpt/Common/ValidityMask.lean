import WfOpt.Lib.ByteStream

/-!
# Validity masks

A mask has a bit for each row, in entries of 64 bits. It is written as the list of its valid rows, or
of the other ones, or as its entries, whichever takes the fewest bytes (`ValidityMask.write`).

What is read is the mask that was written (`ValidityMask.reads_write`).
-/

namespace WfOpt

open List Nat Function

/-- `ValidityMask`: without entries, all rows are valid. -/
structure ValidityMask where
  validityMask : Option (ℕ → BitVec 64)

namespace ValidityMask

/-- `EntryCount` -/
def entryCount (count : ℕ) : ℕ := (count + 63) / 64

/-- A mask without entries. -/
def new : ValidityMask := ⟨none⟩

/-- `Initialize`: all rows are valid. -/
def initialized : ValidityMask := ⟨some fun _ => BitVec.allOnes 64⟩

variable (m : ValidityMask)

/-- `GetValidityEntry` -/
def getValidityEntry (i : ℕ) : BitVec 64 := match m.validityMask with
  | none => BitVec.allOnes 64
  | some entries => entries i

/-- `RowIsValid` -/
def rowIsValid (row : ℕ) : Bool := (m.getValidityEntry (row / 64)).getLsbD (row % 64)

/-- `SetValid` -/
def setValid (row : ℕ) : ValidityMask := match m.validityMask with
  | none => m
  | some entries =>
    ⟨some (update entries (row / 64) (entries (row / 64) ||| 1#64 <<< (row % 64)))⟩

/-- `SetInvalid` -/
def setInvalid (row : ℕ) : ValidityMask := let entries := m.validityMask.getD fun _ => BitVec.allOnes 64
  ⟨some (update entries (row / 64) (entries (row / 64) &&& ~~~(1#64 <<< (row % 64))))⟩

/-- `Set` -/
def set (row : ℕ) (valid : Bool) : ValidityMask := if valid then m.setValid row else m.setInvalid row

/-- `SetAllInvalid` -/
def setAllInvalid (count : ℕ) : ValidityMask := let entries := m.validityMask.getD fun _ => BitVec.allOnes 64
  if count = 0 then ⟨some entries⟩
  else
    let last := entryCount count - 1
    ⟨some fun i =>
      if i < last then 0
      else if i = last then if count % 64 = 0 then 0 else BitVec.allOnes 64 <<< (count % 64)
      else entries i⟩

/-- The number of bits that are set. -/
def popCount (entry : BitVec 64) : ℕ := (range 64).countP fun i => entry.getLsbD i

/-- `CountValid`: the bits of the entries, of which the last one may not count fully. -/
def countValid (count : ℕ) : ℕ := if m.validityMask.isNone || count = 0 then count
  else ((range (entryCount count)).map fun i =>
    let entry := m.getValidityEntry i
    if i + 1 = entryCount count ∧ count % 64 ≠ 0 then
      popCount (entry &&& (BitVec.allOnes 64 >>> (64 - count % 64)))
    else popCount entry).sum

/-- `ValiditySerialization` -/
inductive Serialization
  | bitmask
  | validValues
  | invalidValues
  deriving DecidableEq

/-- The byte of a serialization. -/
def Serialization.code : Serialization → ℕ
  | .bitmask => 0
  | .validValues => 1
  | .invalidValues => 2

/-- The bytes of an index: 16 bits if the number of rows is small. -/
def indexWidth (count : ℕ) : ℕ := if 65535 ≤ count then 4 else 2

/-- `ValidityMask::Write` -/
def write (count : ℕ) : List UInt8 := let validValues := m.countValid count
  let invalidValues := count - validValues
  let bitmaskBytes := entryCount count * 8
  let validValueSize := indexWidth count * validValues + 4
  let invalidValueSize := indexWidth count * invalidValues + 4
  if validValueSize < bitmaskBytes ∨ invalidValueSize < bitmaskBytes then
    let serializeValid : Bool := validValueSize < invalidValueSize
    let flag := if serializeValid then Serialization.validValues else .invalidValues
    littleEndian 1 flag.code ++ (littleEndian 4 (min validValues invalidValues) ++
      ((range count).filter fun i => m.rowIsValid i == serializeValid).flatMap fun i =>
        littleEndian (indexWidth count) i)
  else
    littleEndian 1 Serialization.bitmask.code ++
      (range (entryCount count)).flatMap fun i => littleEndian 8 (m.getValidityEntry i).toNat

/-- The next entry of a mask. -/
def readEntry (p : (ℕ → BitVec 64) × ℕ) : Reader ((ℕ → BitVec 64) × ℕ) := do
  return (update p.1 p.2 (BitVec.ofNat 64 (← readNat 8)), p.2 + 1)

/-- `ReadData` of the entries of a mask. -/
def readEntries (count : ℕ) : Reader ValidityMask := do
  let p ← readTimes readEntry (entryCount count) (fun _ => BitVec.allOnes 64, 0)
  return ⟨some p.1⟩

/-- `ValidityMask::Read` -/
def read (count : ℕ) : Reader ValidityMask := do
  let flag ← readNat 1
  if flag = Serialization.bitmask.code then readEntries count
  else
    let isValid : Bool := flag = Serialization.validValues.code
    let serializeCount ← readNat 4
    readTimes (fun m => do return m.set (← readNat (indexWidth count)) isValid) serializeCount
      (if isValid then initialized.setAllInvalid count else initialized)

variable {m}

/-! ## Rows -/

@[simp] theorem rowIsValid_new (i : ℕ) : new.rowIsValid i = true := by
  rw [rowIsValid, getValidityEntry, new, BitVec.getLsbD_allOnes]
  exact decide_eq_true (mod_lt i (by decide))

/-- Without entries, all rows are valid. -/
theorem rowIsValid_of_none {m : ValidityMask} (h : m.validityMask = none) : m.rowIsValid = fun _ => true := by
  funext row
  rw [rowIsValid, getValidityEntry, h, BitVec.getLsbD_allOnes]
  exact decide_eq_true (mod_lt row (by decide))

@[simp] theorem rowIsValid_initialized (i : ℕ) : initialized.rowIsValid i = true := by
  rw [rowIsValid, getValidityEntry, initialized, BitVec.getLsbD_allOnes]
  exact decide_eq_true (mod_lt i (by decide))

/-- Rows are the same if they have the same bit of the same entry. -/
theorem eq_iff_div_mod {i r : ℕ} : i = r ↔ i / 64 = r / 64 ∧ i % 64 = r % 64 := by omega

/-- The bit of a row in an entry of which one bit is selected. -/
theorem getLsbD_one_shiftLeft {i r : ℕ} (h : i / 64 = r / 64) :
    (1#64 <<< (r % 64)).getLsbD (i % 64) = decide (i = r) := by
  rw [← BitVec.twoPow_eq, BitVec.getLsbD_twoPow, decide_eq_true (mod_lt r (by decide : 0 < 64)), Bool.true_and]
  exact decide_eq_decide.2 ⟨fun heq => eq_iff_div_mod.2 ⟨h, heq.symm⟩, fun heq => (eq_iff_div_mod.1 heq).2.symm⟩

section

variable (m : ValidityMask) (r i : ℕ)

theorem rowIsValid_setValid :
    (m.setValid r).rowIsValid i = (m.rowIsValid i || decide (i = r)) := by
  obtain ⟨_ | entries⟩ := m
  · exact (rowIsValid_new i).trans (by rw [show (⟨none⟩ : ValidityMask) = new from rfl,
      rowIsValid_new, Bool.true_or])
  · change (update entries (r / 64) _ (i / 64)).getLsbD (i % 64) = ((entries (i / 64)).getLsbD (i % 64) || _)
    by_cases h : i / 64 = r / 64
    · rw [h, update_self, BitVec.getLsbD_or, getLsbD_one_shiftLeft h]
    · rw [update_of_ne h, decide_eq_false fun heq => h (by rw [heq]), Bool.or_false]

theorem rowIsValid_setInvalid :
    (m.setInvalid r).rowIsValid i = (m.rowIsValid i && !decide (i = r)) := by
  have hents : ∀ entries : ℕ → BitVec 64,
      (⟨some (update entries (r / 64) (entries (r / 64) &&& ~~~(1#64 <<< (r % 64))))⟩ :
        ValidityMask).rowIsValid i = ((entries (i / 64)).getLsbD (i % 64) && !decide (i = r)) := by
    intro entries
    change (update entries (r / 64) _ (i / 64)).getLsbD (i % 64) = _
    by_cases h : i / 64 = r / 64
    · rw [h, update_self, BitVec.getLsbD_and, BitVec.getLsbD_not, getLsbD_one_shiftLeft h,
        decide_eq_true (mod_lt i (by decide : 0 < 64)), Bool.true_and]
    · rw [update_of_ne h, decide_eq_false fun heq => h (by rw [heq]), Bool.not_false, Bool.and_true]
  obtain ⟨_ | entries⟩ := m
  · exact hents _
  · exact hents entries

theorem rowIsValid_set (valid : Bool) :
    (m.set r valid).rowIsValid i = if i = r then valid else m.rowIsValid i := by
  rw [set]
  cases valid with
  | true =>
    rw [if_pos rfl, rowIsValid_setValid]
    by_cases h : i = r <;> simp [h]
  | false =>
    rw [if_neg Bool.false_ne_true, rowIsValid_setInvalid]
    by_cases h : i = r <;> simp [h]

end

theorem rowIsValid_foldl_set (valid : Bool) (l : List ℕ) (i : ℕ) : ∀ m : ValidityMask,
    (l.foldl (fun m r => m.set r valid) m).rowIsValid i = if i ∈ l then valid else m.rowIsValid i := by
  induction l with
  | nil => exact fun m => (if_neg not_mem_nil).symm
  | cons r l ih =>
    intro m
    rw [foldl_cons, ih, rowIsValid_set]
    by_cases hl : i ∈ l
    · rw [if_pos hl, if_pos (mem_cons_of_mem r hl)]
    · by_cases hr : i = r
      · rw [if_neg hl, if_pos hr, if_pos (hr ▸ mem_cons_self)]
      · rw [if_neg hl, if_neg hr, if_neg fun h => (mem_cons.1 h).elim hr hl]

variable (m)

theorem rowIsValid_setAllInvalid {count i : ℕ} (hi : i < count) : (m.setAllInvalid count).rowIsValid i = false := by
  have hpos : count ≠ 0 := Nat.ne_zero_of_lt hi
  have hlst : i / 64 ≤ entryCount count - 1 := by
    rw [entryCount]
    omega
  rw [setAllInvalid, if_neg hpos, rowIsValid, getValidityEntry]
  dsimp only
  by_cases hlt : i / 64 < entryCount count - 1
  · rw [if_pos hlt]
    exact BitVec.getLsbD_zero
  · have heq : i / 64 = entryCount count - 1 := le_antisymm hlst (not_lt.1 hlt)
    rw [if_neg hlt, if_pos heq]
    by_cases hmod : count % 64 = 0
    · rw [if_pos hmod]
      exact BitVec.getLsbD_zero
    · -- the bits of the last entry that belong to rows are shifted out
      rw [if_neg hmod, BitVec.getLsbD_shiftLeft]
      rw [entryCount] at heq
      have hsh : i % 64 < count % 64 := by omega
      rw [decide_eq_true hsh, Bool.not_true, Bool.and_false, Bool.false_and]

/-! ## Counts -/

/-- The rows of the first entries. -/
theorem countP_entries (p : ℕ → Bool) (k : ℕ) : (range (64 * k)).countP p =
    ((range k).map fun i => (range 64).countP fun j => p (64 * i + j)).sum := by
  induction k with
  | zero => rfl
  | succ k ih =>
    rw [mul_succ, range_add, countP_append, ih, countP_map,
      range_succ (n := k), map_append, sum_append_nat, map_singleton,
      sum_singleton]
    rfl

theorem popCount_entry (i : ℕ) :
    popCount (m.getValidityEntry i) = (range 64).countP fun j => m.rowIsValid (64 * i + j) := by
  refine countP_congr fun j hj => ?_
  have hj := mem_range.1 hj
  rw [rowIsValid, mul_add_div (by decide), div_eq_of_lt hj, Nat.add_zero, mul_add_mod, mod_eq_of_lt hj]

theorem popCount_ragged (i : ℕ) {n : ℕ} (hn : n < 64) :
    popCount (m.getValidityEntry i &&& (BitVec.allOnes 64 >>> (64 - n))) =
      (range n).countP fun j => m.rowIsValid (64 * i + j) := by
  obtain ⟨k, hk⟩ := Nat.exists_eq_add_of_le hn.le
  have hbit : ∀ j, (m.getValidityEntry i &&& (BitVec.allOnes 64 >>> (64 - n))).getLsbD j =
      ((m.getValidityEntry i).getLsbD j && decide (j < n)) := by
    intro j
    rw [BitVec.getLsbD_and, BitVec.getLsbD_ushiftRight, BitVec.getLsbD_allOnes]
    refine congrArg (Bool.and _) (decide_eq_decide.2 ?_)
    omega
  have hfst : (range n).countP (fun j => (m.getValidityEntry i).getLsbD j && decide (j < n)) =
      (range n).countP fun j => m.rowIsValid (64 * i + j) := by
    refine countP_congr fun j hj => ?_
    have hj := mem_range.1 hj
    rw [rowIsValid, mul_add_div (by decide), div_eq_of_lt (hj.trans hn), Nat.add_zero,
      mul_add_mod, mod_eq_of_lt (hj.trans hn), decide_eq_true hj, Bool.and_true]
  have hrst : ((range k).map fun j => n + j).countP
      (fun j => (m.getValidityEntry i).getLsbD j && decide (j < n)) = 0 := by
    refine countP_eq_zero.2 fun j hj => ?_
    obtain ⟨j', -, rfl⟩ := mem_map.1 hj
    rw [decide_eq_false (Nat.not_lt.2 (Nat.le_add_right n j')), Bool.and_false]
    exact Bool.false_ne_true
  have hrng : range 64 = range n ++ (range k).map fun j => n + j := by
    rw [hk]
    exact range_add
  rw [popCount, hrng, countP_append]
  simp only [hbit]
  rw [hfst, hrst, Nat.add_zero]

theorem countValid_eq (count : ℕ) : m.countValid count = (range count).countP fun i => m.rowIsValid i := by
  rw [countValid]
  by_cases hemp : m.validityMask.isNone || count = 0
  · rw [if_pos hemp]
    rw [Bool.or_eq_true, Option.isNone_iff_eq_none, decide_eq_true_iff] at hemp
    rcases hemp with hno | rfl
    · obtain rfl : m = new := by
        exact congrArg ValidityMask.mk hno
      exact (countP_eq_length.2 fun i _ => rowIsValid_new i).trans length_range |>.symm
    · rfl
  · rw [if_neg hemp]
    by_cases hmod : count % 64 = 0
    · -- all entries are counted fully
      have hcnt : entryCount count = count / 64 := by
        rw [entryCount]
        omega
      have hmul : 64 * (count / 64) = count := by omega
      have hp := countP_entries (fun i => m.rowIsValid i) (count / 64)
      rw [hmul] at hp
      rw [hp, hcnt]
      refine congrArg sum (map_congr_left fun i _ => ?_)
      rw [if_neg fun h => h.2 hmod]
      exact m.popCount_entry i
    · have hcnt : entryCount count = count / 64 + 1 := by
        rw [entryCount]
        omega
      have hspl : count = 64 * (count / 64) + count % 64 := (div_add_mod count 64).symm
      have hrng : range count = range (64 * (count / 64)) ++
          (range (count % 64)).map fun j => 64 * (count / 64) + j := by
        conv_lhs => rw [hspl]
        exact range_add
      rw [hrng, countP_append, countP_map, countP_entries, hcnt, range_succ,
        map_append, sum_append_nat, map_singleton, sum_singleton]
      refine congrArg₂ (· + ·) (congrArg sum (map_congr_left fun i hi => ?_)) ?_
      · rw [if_neg fun h => absurd h.1 (succ_lt_succ (mem_range.1 hi)).ne]
        exact m.popCount_entry i
      · rw [if_pos ⟨rfl, hmod⟩]
        exact m.popCount_ragged _ (mod_lt count (by decide))

/-! ## Serialization -/

theorem lt_indexWidth {count i : ℕ} (hcnt : count ≤ 2 ^ 32) (hi : i < count) : i < 256 ^ indexWidth count := by
  rw [indexWidth]
  by_cases hlrg : 65535 ≤ count
  · rw [if_pos hlrg]
    omega
  · rw [if_neg hlrg]
    omega

/-- Rows whose indexes have been written are set. -/
theorem reads_indexes {count : ℕ} (hcnt : count ≤ 2 ^ 32) {l : List ℕ} (hl : ∀ i ∈ l, i < count)
    (valid : Bool) (m : ValidityMask) :
    Reads (readTimes (fun m => do return m.set (← readNat (indexWidth count)) valid) l.length m)
      (l.flatMap fun i => littleEndian (indexWidth count) i) (l.foldl (fun m i => m.set i valid) m) :=
  Reads.times _ _ l (fun i hi m => (reads_readNat (lt_indexWidth hcnt (hl i hi))).map
    fun index => m.set index valid) m

/-- The entries after the first `n` ones have been read. -/
theorem foldl_entries (entries entries' : ℕ → BitVec 64) (n : ℕ) :
    (range n).foldl (fun p i => (update p.1 p.2 (entries i), p.2 + 1)) (entries', 0) =
      (fun i => if i < n then entries i else entries' i, n) := by
  induction n with
  | zero => rfl
  | succ n ih =>
    rw [range_succ, foldl_append, ih]
    refine Prod.ext (funext fun i => ?_) rfl
    change update (fun i => if i < n then entries i else entries' i) n (entries n) i = _
    rw [update_apply]
    by_cases hn : i = n
    · rw [if_pos hn, hn]
      exact (if_pos (lt_succ_self n)).symm
    · rw [if_neg hn]
      exact if_congr (Nat.lt_succ_iff_lt_or_eq.trans (or_iff_left hn)).symm rfl rfl

theorem reads_entries (count : ℕ) : ∃ m', Reads (readEntries count)
        ((range (entryCount count)).flatMap fun i => littleEndian 8 (m.getValidityEntry i).toNat) m' ∧
      ∀ i < count, m'.rowIsValid i = m.rowIsValid i := by
  have hrd := Reads.times (r := readEntry) (fun i => littleEndian 8 (m.getValidityEntry i).toNat)
    (fun p i => (update p.1 p.2 (m.getValidityEntry i), p.2 + 1))
    (range (entryCount count)) (fun i _ p => by
      have hlt : (m.getValidityEntry i).toNat < 256 ^ 8 := (m.getValidityEntry i).isLt
      have h := (reads_readNat hlt).map fun n => (update p.1 p.2 (BitVec.ofNat 64 n), p.2 + 1)
      rw [BitVec.ofNat_toNat, BitVec.setWidth_eq] at h
      exact h) (fun _ => BitVec.allOnes 64, 0)
  rw [length_range, foldl_entries] at hrd
  refine ⟨_, hrd.map fun p => (⟨some p.1⟩ : ValidityMask), fun i hi => ?_⟩
  have hlt : i / 64 < entryCount count := by
    rw [entryCount]
    omega
  rw [rowIsValid, getValidityEntry]
  dsimp only
  rw [if_pos hlt]
  rfl

/-- The rows that are written are the fewer ones. -/
theorem length_filter_valid (count : ℕ) {valid : Bool}
    (hvld : valid = decide (indexWidth count * m.countValid count + 4 <
      indexWidth count * (count - m.countValid count) + 4)) :
    ((range count).filter fun i => m.rowIsValid i == valid).length =
      min (m.countValid count) (count - m.countValid count) := by
  have hwid : 0 < indexWidth count := by
    rw [indexWidth]
    split_ifs <;> decide
  have hspl := length_eq_countP_add_countP (fun i => m.rowIsValid i) (l := range count)
  rw [length_range, ← countValid_eq] at hspl
  cases valid with
  | true =>
    have hlt := Nat.lt_of_mul_lt_mul_left (Nat.lt_of_add_lt_add_right (of_decide_eq_true hvld.symm))
    rw [min_eq_left hlt.le, countValid_eq, countP_eq_length_filter]
    simp only [beq_true]
  | false =>
    have hle := Nat.le_of_mul_le_mul_left
      (Nat.le_of_add_le_add_right (not_lt.1 (of_decide_eq_false hvld.symm))) hwid
    rw [min_eq_right hle, Nat.sub_eq_of_eq_add' hspl, countP_eq_length_filter]
    simp only [beq_false, Bool.not_eq_true, Bool.decide_eq_false]

theorem reads_write {count : ℕ} (hcnt : count ≤ 2 ^ 32) :
    ∃ m', Reads (read count) (m.write count) m' ∧ ∀ i < count, m'.rowIsValid i = m.rowIsValid i := by
  rw [write]
  dsimp only
  by_cases hsz : indexWidth count * m.countValid count + 4 < entryCount count * 8 ∨
      indexWidth count * (count - m.countValid count) + 4 < entryCount count * 8
  · rw [if_pos hsz]
    obtain ⟨valid, hvld⟩ : ∃ valid : Bool, valid = decide (indexWidth count * m.countValid count + 4 <
      indexWidth count * (count - m.countValid count) + 4) := ⟨_, rfl⟩
    rw [← hvld]
    obtain ⟨l, hl⟩ : ∃ l, l = (range count).filter fun i => m.rowIsValid i == valid := ⟨_, rfl⟩
    rw [← hl]
    have hlt : ∀ i ∈ l, i < count := fun i hi => mem_range.1 (mem_of_mem_filter (hl ▸ hi))
    have hlength : l.length = min (m.countValid count) (count - m.countValid count) :=
      hl ▸ m.length_filter_valid count hvld
    rw [← hlength]
    have hlen : l.length < 256 ^ 4 := by
      omega
    have hmem : ∀ i < count, i ∈ l ↔ m.rowIsValid i = valid := by
      intro i hi
      rw [hl, mem_filter, mem_range, beq_iff_eq]
      exact and_iff_right hi
    cases valid with
    | true =>
      refine ⟨_, (reads_readNat (by decide)).bind ((reads_readNat hlen).bind
        (reads_indexes hcnt hlt true (initialized.setAllInvalid count))), fun i hi => ?_⟩
      rw [rowIsValid_foldl_set, rowIsValid_setAllInvalid _ hi]
      by_cases hi' : i ∈ l
      · rw [if_pos hi', (hmem i hi).1 hi']
      · rw [if_neg hi', Bool.eq_false_iff.2 fun h => hi' ((hmem i hi).2 h)]
    | false =>
      refine ⟨_, (reads_readNat (by decide)).bind ((reads_readNat hlen).bind
        (reads_indexes hcnt hlt false initialized)), fun i hi => ?_⟩
      rw [rowIsValid_foldl_set, rowIsValid_initialized]
      by_cases hi' : i ∈ l
      · rw [if_pos hi', (hmem i hi).1 hi']
      · rw [if_neg hi']
        exact (Bool.not_eq_false _ |>.mp fun h => hi' ((hmem i hi).2 h)).symm
  · rw [if_neg hsz]
    obtain ⟨m', hrd, hm'⟩ := m.reads_entries count
    exact ⟨m', (reads_readNat (by decide)).bind hrd, hm'⟩

/-- Reading undoes writing, and takes the bytes that were written. -/
theorem read_write (m : ValidityMask) {count : ℕ} (hcount : count < 2 ^ 32) :
    ∃ m', Reads (read count) (m.write count) m' ∧ ∀ i < count, m'.rowIsValid i = m.rowIsValid i :=
  m.reads_write hcount.le

theorem read_write_row : ∃ m', Reads (read 1) ((new.setInvalid 0).write 1) m' ∧
    ∀ i < 1, m'.rowIsValid i = (new.setInvalid 0).rowIsValid i :=
  read_write (new.setInvalid 0) (by decide)

end ValidityMask

end WfOpt

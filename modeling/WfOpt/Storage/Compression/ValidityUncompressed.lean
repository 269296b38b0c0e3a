import WfOpt.Common.ValidityMask

/-!
# Scans of validity bits

A scan copies a range of the validity bits of a segment to the mask of a result vector. If the ranges start with a
word, whole words are copied (`alignedScan`). Otherwise, a word of the input is shifted, the bits that do not belong
there are set to one, and the word is combined with that of the result (`unalignedScan`).

Not all of these bits are set to one, before the first row and behind the last one (`reach`), so that rows outside
the range may become invalid (`unalignedScan_iff`).
-/

namespace WfOpt

set_option maxRecDepth 10000

open List Function

namespace ValidityUncompressed

/-! ## Masks -/

/-- `LOWER_MASKS` -/
def lowerMasks : List (BitVec 64) :=
   [0x0, 0x1, 0x3, 0x7, 0xf, 0x1f, 0x3f, 0x7f, 0xff, 0x1ff, 0x3ff, 0x7ff, 0xfff, 0x1fff, 0x3fff,
    0x7fff, 0xffff, 0x1ffff, 0x3ffff, 0x7ffff, 0xfffff, 0x1fffff, 0x3fffff, 0x7fffff, 0xffffff,
    0x1ffffff, 0x3ffffff, 0x7ffffff, 0xfffffff, 0x1fffffff, 0x3fffffff, 0x7fffffff, 0xffffffff,
    0x1ffffffff, 0x3ffffffff, 0x7ffffffff, 0xfffffffff, 0x1fffffffff, 0x3fffffffff, 0x7fffffffff,
    0xffffffffff, 0x1ffffffffff, 0x3ffffffffff, 0x7ffffffffff, 0xfffffffffff, 0x1fffffffffff,
    0x3fffffffffff, 0x7fffffffffff, 0xffffffffffff, 0x1ffffffffffff, 0x3ffffffffffff,
    0x7ffffffffffff, 0xfffffffffffff, 0x1fffffffffffff, 0x3fffffffffffff, 0x7fffffffffffff,
    0xffffffffffffff, 0x1ffffffffffffff, 0x3ffffffffffffff, 0x7ffffffffffffff, 0xfffffffffffffff,
    0x1fffffffffffffff, 0x3fffffffffffffff, 0x7fffffffffffffff, 0xffffffffffffffff]

/-- `UPPER_MASKS` -/
def upperMasks : List (BitVec 64) :=
   [0x0, 0x8000000000000000, 0xc000000000000000, 0xe000000000000000, 0xf000000000000000,
    0xf800000000000000, 0xfc00000000000000, 0xfe00000000000000, 0xff00000000000000,
    0xff80000000000000, 0xffc0000000000000, 0xffe0000000000000, 0xfff0000000000000,
    0xfff8000000000000, 0xfffc000000000000, 0xfffe000000000000, 0xffff000000000000,
    0xffff800000000000, 0xffffc00000000000, 0xffffe00000000000, 0xfffff00000000000,
    0xfffff80000000000, 0xfffffc0000000000, 0xfffffe0000000000, 0xffffff0000000000,
    0xffffff8000000000, 0xffffffc000000000, 0xffffffe000000000, 0xfffffff000000000,
    0xfffffff800000000, 0xfffffffc00000000, 0xfffffffe00000000, 0xffffffff00000000,
    0xffffffff80000000, 0xffffffffc0000000, 0xffffffffe0000000, 0xfffffffff0000000,
    0xfffffffff8000000, 0xfffffffffc000000, 0xfffffffffe000000, 0xffffffffff000000,
    0xffffffffff800000, 0xffffffffffc00000, 0xffffffffffe00000, 0xfffffffffff00000,
    0xfffffffffff80000, 0xfffffffffffc0000, 0xfffffffffffe0000, 0xffffffffffff0000,
    0xffffffffffff8000, 0xffffffffffffc000, 0xffffffffffffe000, 0xfffffffffffff000,
    0xfffffffffffff800, 0xfffffffffffffc00, 0xfffffffffffffe00, 0xffffffffffffff00,
    0xffffffffffffff80, 0xffffffffffffffc0, 0xffffffffffffffe0, 0xfffffffffffffff0,
    0xfffffffffffffff8, 0xfffffffffffffffc, 0xfffffffffffffffe, 0xffffffffffffffff]

def lowerMask (n : ℕ) : BitVec 64 := lowerMasks.getD n 0

def upperMask (n : ℕ) : BitVec 64 := upperMasks.getD n 0

theorem getLsbD_lowerMask {n i : ℕ} (hn : n ≤ 64) (hi : i < 64) : (lowerMask n).getLsbD i = decide (i < n) := by
  have h : ∀ n : Fin 65, ∀ i : Fin 64, (lowerMask n).getLsbD i = decide (i.1 < n.1) := by decide
  exact h ⟨n, Nat.lt_succ_of_le hn⟩ ⟨i, hi⟩

theorem getLsbD_upperMask {n i : ℕ} (hn : n ≤ 64) (hi : i < 64) : (upperMask n).getLsbD i = decide (64 ≤ i + n) := by
  have h : ∀ n : Fin 65, ∀ i : Fin 64, (upperMask n).getLsbD i = decide (64 ≤ i.1 + n.1) := by decide
  exact h ⟨n, Nat.lt_succ_of_le hn⟩ ⟨i, hi⟩

/-! ## Unaligned scans -/

/-- The entry and the bit in it of the result and of the input, and the number of bits so far. -/
structure ScanPosition where
  resultEntry : ℕ
  resultIdx : ℕ
  inputEntry : ℕ
  inputIdx : ℕ
  pos : ℕ

/-- The bits of the current input entry at their place in the result entry, and the next position. -/
def alignEntry (input : ℕ → BitVec 64) (p : ScanPosition) : BitVec 64 × ScanPosition :=
  let inputMask := input p.inputEntry
  if p.resultIdx < p.inputIdx then
    let shiftAmount := p.inputIdx - p.resultIdx
    let inputMask := inputMask >>> shiftAmount ||| upperMask shiftAmount
    let inputMask := if p.pos = 0 then inputMask ||| lowerMask p.resultIdx else inputMask
    let offset := 64 - p.inputIdx
    (inputMask, ⟨p.resultEntry, p.resultIdx + offset, p.inputEntry + 1, 0, p.pos + offset⟩)
  else if p.resultIdx > p.inputIdx then
    let shiftAmount := p.resultIdx - p.inputIdx
    let inputMask := (inputMask &&& ~~~upperMask shiftAmount) <<< shiftAmount ||| lowerMask shiftAmount
    let offset := 64 - p.resultIdx
    (inputMask, ⟨p.resultEntry + 1, 0, p.inputEntry, p.inputIdx + offset, p.pos + offset⟩)
  else
    let offset := 64 - p.resultIdx
    (inputMask, ⟨p.resultEntry + 1, 0, p.inputEntry + 1, 0, p.pos + offset⟩)

/-- An entry is combined with a mask, unless the mask is `MAX_ENTRY`. -/
def andEntry (m : ValidityMask) (entry : ℕ) (mask : BitVec 64) : ValidityMask := if mask ≠ BitVec.allOnes 64 then
    let entries := m.validityMask.getD fun _ => BitVec.allOnes 64
    ⟨some (update entries entry (entries entry &&& mask))⟩
  else m

/-- A round of the loop of `UnalignedScan`. -/
def scanRound (input : ℕ → BitVec 64) (scanCount : ℕ) (s : ValidityMask × ScanPosition) :
    ValidityMask × ScanPosition :=
  let (inputMask, p) := alignEntry input s.2
  let inputMask := if p.pos > scanCount then inputMask ||| upperMask (p.pos - scanCount) else inputMask
  (andEntry s.1 s.2.resultEntry inputMask, p)

/-- The loop. Each round scans a bit at least. -/
def scanLoop (input : ℕ → BitVec 64) (scanCount : ℕ) :
    (fuel : ℕ) → ValidityMask × ScanPosition → ValidityMask × ScanPosition
  | 0, s => s
  | fuel + 1, s =>
    if s.2.pos < scanCount then scanLoop input scanCount fuel (scanRound input scanCount s) else s

/-- `ValidityUncompressed::UnalignedScan` -/
def unalignedScan (input : ℕ → BitVec 64) (inputStart : ℕ) (result : ValidityMask)
    (resultOffset scanCount : ℕ) : ValidityMask :=
  let resultEntry := resultOffset / 64
  let resultIdx := resultOffset - resultEntry * 64
  let inputEntry := inputStart / 64
  let inputIdx := inputStart - inputEntry * 64
  (scanLoop input scanCount scanCount (result, ⟨resultEntry, resultIdx, inputEntry, inputIdx, 0⟩)).1

/-! ### What a scan reaches -/

/-- The bit of the input that is shifted to a bit of the result. -/
def sourceBit (input : ℕ → BitVec 64) (inputStart resultOffset j : ℕ) : Bool :=
  (⟨some input⟩ : ValidityMask).rowIsValid (j + inputStart - resultOffset)

/-- The bits before the first one that are combined with those of the first input entry, if they fit the first result
    entry. -/
def reachBefore (inputStart resultOffset : ℕ) : ℕ :=
  if inputStart % 64 ≤ resultOffset % 64 then inputStart % 64 else 0

/-- The bits that are left of an entry. -/
def rest (t : ℕ) : ℕ := (64 - t % 64) % 64

/-- The bits behind the last one that are combined with bits of the input. -/
def reachBehind (inputEnd resultEnd : ℕ) : ℕ := min (rest inputEnd) (rest resultEnd - rest inputEnd)

/-- The position is that of the next bit to scan. Behind the first round, the result or the input is at the start of
    an entry. -/
structure ScanPosition.At (inputStart resultOffset : ℕ) (p : ScanPosition) : Prop where
  result_eq : 64 * p.resultEntry + p.resultIdx = resultOffset + p.pos
  input_eq : 64 * p.inputEntry + p.inputIdx = inputStart + p.pos
  result_lt : p.resultIdx < 64
  input_lt : p.inputIdx < 64
  start : p.pos ≠ 0 → p.resultIdx = 0 ∨ p.inputIdx = 0

variable {input : ℕ → BitVec 64} {inputStart resultOffset scanCount : ℕ} {p : ScanPosition}

theorem at_zero (inputStart resultOffset : ℕ) : ScanPosition.At inputStart resultOffset
    ⟨resultOffset / 64, resultOffset - resultOffset / 64 * 64, inputStart / 64,
      inputStart - inputStart / 64 * 64, 0⟩ where
  result_eq := by dsimp only; omega
  input_eq := by dsimp only; omega
  result_lt := by dsimp only; omega
  input_lt := by dsimp only; omega
  start h := absurd rfl h

/-- The first bit that a round reaches. -/
def roundBegin (inputStart resultOffset pos : ℕ) : ℕ :=
  if pos = 0 then resultOffset - reachBefore inputStart resultOffset else resultOffset + pos

/-- The bit behind the last one that a round reaches, which ends at `pos`. -/
def roundEnd (inputStart resultOffset scanCount pos : ℕ) : ℕ := if pos ≤ scanCount then resultOffset + pos
  else resultOffset + scanCount + reachBehind (inputStart + scanCount) (resultOffset + scanCount)

theorem rowIsValid_andEntry (m : ValidityMask) (entry : ℕ) (mask : BitVec 64) (j : ℕ) :
    (andEntry m entry mask).rowIsValid j =
      (m.rowIsValid j && (!decide (j / 64 = entry) || mask.getLsbD (j % 64))) := by
  have hj : j % 64 < 64 := Nat.mod_lt j (by decide)
  rw [andEntry]
  by_cases hmask : mask = BitVec.allOnes 64
  · rw [if_neg (not_not.2 hmask), hmask, BitVec.getLsbD_allOnes, decide_eq_true hj, Bool.or_true, Bool.and_true]
  · rw [if_pos hmask]
    have hents : ∀ entries : ℕ → BitVec 64,
        (⟨some (update entries entry (entries entry &&& mask))⟩ : ValidityMask).rowIsValid j =
          ((entries (j / 64)).getLsbD (j % 64) && (!decide (j / 64 = entry) || mask.getLsbD (j % 64))) := by
      intro entries
      change (update entries entry _ (j / 64)).getLsbD (j % 64) = _
      by_cases h : j / 64 = entry
      · rw [h, update_self, BitVec.getLsbD_and, decide_eq_true rfl, Bool.not_true, Bool.false_or]
      · rw [update_of_ne h, decide_eq_false h, Bool.not_false, Bool.true_or, Bool.and_true]
    obtain ⟨_ | entries⟩ := m
    · exact hents _
    · exact hents entries

/-- The bit behind the last one of the result entry that has a bit of the input entry. -/
def alignEnd (p : ScanPosition) : ℕ := 64 - (p.inputIdx - p.resultIdx)

/-- The next position. -/
theorem alignEntry_at (input : ℕ → BitVec 64) (h : p.At inputStart resultOffset) :
    (alignEntry input p).2.At inputStart resultOffset ∧
      (alignEntry input p).2.pos = p.pos + (64 - max p.resultIdx p.inputIdx) := by
  obtain ⟨hres, hinput, hresultlt, hinputlt, -⟩ := h
  rw [alignEntry]
  rcases lt_trichotomy p.resultIdx p.inputIdx with hlt | heq | hgt
  · rw [if_pos hlt]
    refine ⟨⟨?_, ?_, ?_, ?_, fun _ => .inr rfl⟩, ?_⟩ <;> dsimp only <;> omega
  · rw [if_neg heq.not_lt, if_neg heq.not_gt]
    refine ⟨⟨?_, ?_, ?_, ?_, fun _ => .inl rfl⟩, ?_⟩ <;> dsimp only <;> omega
  · rw [if_neg hgt.not_gt, if_pos hgt]
    refine ⟨⟨?_, ?_, ?_, ?_, fun _ => .inl rfl⟩, ?_⟩ <;> dsimp only <;> omega

theorem roundBegin_eq (h : p.At inputStart resultOffset) :
    roundBegin inputStart resultOffset p.pos = 64 * p.resultEntry + (p.resultIdx - p.inputIdx) +
      if p.resultIdx < p.inputIdx then p.resultIdx else 0 := by
  obtain ⟨hres, hinput, hresultlt, hinputlt, hst⟩ := h
  rw [roundBegin]
  by_cases hpos : p.pos = 0
  · rw [if_pos hpos, reachBefore]
    split_ifs <;> omega
  · split_ifs <;> omega

/-- A bit has the bit of the input at its place, or it is set. -/
theorem getLsbD_alignEntry (input : ℕ → BitVec 64) (h : p.At inputStart resultOffset) {i : ℕ} (hi : i < 64) :
    (alignEntry input p).1.getLsbD i =
      (!decide (roundBegin inputStart resultOffset p.pos ≤ 64 * p.resultEntry + i ∧ i < alignEnd p) ||
        sourceBit input inputStart resultOffset (64 * p.resultEntry + i)) := by
  have hbeg := roundBegin_eq h
  obtain ⟨hres, hinput, hresultlt, hinputlt, hst⟩ := h
  -- the bit of the input entry
  have hsrc : ∀ k < 64, i + p.inputIdx = k + p.resultIdx →
      sourceBit input inputStart resultOffset (64 * p.resultEntry + i) = (input p.inputEntry).getLsbD k := by
    intro k hk hik
    have hidx : 64 * p.resultEntry + i + inputStart - resultOffset = 64 * p.inputEntry + k := by omega
    rw [sourceBit, hidx]
    change (input ((64 * p.inputEntry + k) / 64)).getLsbD ((64 * p.inputEntry + k) % 64) = _
    rw [Nat.mul_add_div (by decide), Nat.div_eq_of_lt hk, Nat.add_zero, Nat.mul_add_mod, Nat.mod_eq_of_lt hk]
  rw [hbeg, alignEntry, alignEnd]
  rcases lt_trichotomy p.resultIdx p.inputIdx with hlt | heq | hgt
  · rw [if_pos hlt, if_pos hlt]
    dsimp only
    have hsh : (input p.inputEntry >>> (p.inputIdx - p.resultIdx) |||
        upperMask (p.inputIdx - p.resultIdx)).getLsbD i = (!decide (i < 64 - (p.inputIdx - p.resultIdx)) ||
            sourceBit input inputStart resultOffset (64 * p.resultEntry + i)) := by
      rw [BitVec.getLsbD_or, BitVec.getLsbD_ushiftRight, getLsbD_upperMask (by omega) hi]
      by_cases hfit : i < 64 - (p.inputIdx - p.resultIdx)
      · rw [hsrc (p.inputIdx - p.resultIdx + i) (by omega) (by omega), decide_eq_true hfit,
          decide_eq_false (by omega), Bool.or_false, Bool.not_true, Bool.false_or]
      · rw [decide_eq_false hfit, decide_eq_true (by omega), Bool.or_true, Bool.not_false, Bool.true_or]
    have hbef : p.resultIdx - p.inputIdx = 0 := Nat.sub_eq_zero_of_le hlt.le
    by_cases hpos : p.pos = 0
    · rw [if_pos hpos, BitVec.getLsbD_or, hsh, getLsbD_lowerMask hresultlt.le hi]
      by_cases hrow : i < p.resultIdx
      · rw [decide_eq_true hrow, Bool.or_true, decide_eq_false (by omega)]
        rfl
      · rw [decide_eq_false hrow, Bool.or_false]
        exact congrArg (!· || _) (decide_eq_decide.2 ⟨fun h => ⟨by omega, h⟩, fun h => h.2⟩)
    · rw [if_neg hpos, hsh]
      exact congrArg (!· || _) (decide_eq_decide.2 ⟨fun h => ⟨by omega, h⟩, fun h => h.2⟩)
  · rw [if_neg heq.not_lt, if_neg heq.not_gt, if_neg heq.not_lt, hsrc i hi (by omega)]
    rw [decide_eq_true (by omega)]
    rfl
  · rw [if_neg hgt.not_gt, if_pos hgt, if_neg hgt.not_gt]
    rw [BitVec.getLsbD_or, BitVec.getLsbD_shiftLeft, BitVec.getLsbD_and, BitVec.getLsbD_not,
      getLsbD_upperMask (by omega) (by omega), getLsbD_lowerMask (by omega) hi, decide_eq_true hi,
      Bool.true_and]
    by_cases hrow : i < p.resultIdx - p.inputIdx
    · rw [decide_eq_true hrow, Bool.or_true, decide_eq_false (by omega)]
      rfl
    · -- the upper bits of the input entry are cut off before the shift
      rw [decide_eq_false hrow, Bool.or_false, Bool.not_false, Bool.true_and, decide_eq_true (by omega),
        Bool.true_and, decide_eq_false (by omega), Bool.not_false, Bool.and_true, decide_eq_true (by omega),
        Bool.not_true, Bool.false_or, hsrc (i - (p.resultIdx - p.inputIdx)) (by omega) (by omega)]

/-- The upper mask leaves out the bits between the last one and those that it sets. -/
theorem roundEnd_eq (h : p.At inputStart resultOffset) (hpos : p.pos < scanCount) :
    roundEnd inputStart resultOffset scanCount (p.pos + (64 - max p.resultIdx p.inputIdx)) = 64 * p.resultEntry +
        min (alignEnd p) (64 - (p.pos + (64 - max p.resultIdx p.inputIdx) - scanCount)) := by
  obtain ⟨hres, hinput, hresultlt, hinputlt, hst⟩ := h
  rw [roundEnd, alignEnd]
  split_ifs with hlst
  · omega
  · have hrest : ∀ {t e i}, 64 * e + i = t + p.pos → i ≤ max p.resultIdx p.inputIdx →
        rest (t + scanCount) = 64 - (i + (scanCount - p.pos)) := by
      intro t e i heq hle
      rw [rest]
      omega
    rw [reachBehind, hrest hinput (le_max_right ..), hrest hres (le_max_left ..)]
    omega

/-- A round changes the bits that it reaches, according to those of the input. -/
theorem rowIsValid_scanRound (m : ValidityMask) (h : p.At inputStart resultOffset)
    (hpos : p.pos < scanCount) (j : ℕ) :
    (scanRound input scanCount (m, p)).1.rowIsValid j =
      (m.rowIsValid j && (!decide (roundBegin inputStart resultOffset p.pos ≤ j ∧
        j < roundEnd inputStart resultOffset scanCount (scanRound input scanCount (m, p)).2.pos) ||
          sourceBit input inputStart resultOffset j)) := by
  have hnx := (alignEntry_at input h).2
  have hbits := @getLsbD_alignEntry inputStart resultOffset p input h
  have hbeg := roundBegin_eq h
  have hend := roundEnd_eq h hpos
  rw [scanRound]
  rw [rowIsValid_andEntry, hnx]
  refine congrArg (Bool.and _) ?_
  by_cases hent : j / 64 = p.resultEntry
  · have hj : j = 64 * p.resultEntry + j % 64 := by omega
    have hlt : j % 64 < 64 := Nat.mod_lt j (by decide)
    rw [decide_eq_true hent, Bool.not_true, Bool.false_or, hend]
    have hover : p.pos + (64 - max p.resultIdx p.inputIdx) - scanCount ≤ 64 := by omega
    generalize p.pos + (64 - max p.resultIdx p.inputIdx) = pos at hover
    have hmask : (if pos > scanCount then (alignEntry input p).1 ||| upperMask (pos - scanCount)
        else (alignEntry input p).1).getLsbD (j % 64) =
          ((alignEntry input p).1.getLsbD (j % 64) || decide (64 ≤ j % 64 + (pos - scanCount))) := by
      by_cases hlst : pos > scanCount
      · rw [if_pos hlst, BitVec.getLsbD_or, getLsbD_upperMask hover hlt]
      · rw [if_neg hlst, decide_eq_false (by omega), Bool.or_false]
    rw [hmask, hbits hlt, ← hj]
    by_cases hup : 64 ≤ j % 64 + (pos - scanCount)
    · rw [decide_eq_true hup, Bool.or_true, decide_eq_false (by omega), Bool.not_false, Bool.true_or]
    · rw [decide_eq_false hup, Bool.or_false]
      exact congrArg (!· || _) (decide_eq_decide.2 (and_congr_right fun _ => by omega))
  · rw [decide_eq_false hent, Bool.not_false, Bool.true_or, decide_eq_false, Bool.not_false, Bool.true_or]
    omega

/-- Behind the last round, nothing is done. -/
theorem scanLoop_of_le {m : ValidityMask} (h : scanCount ≤ p.pos) (fuel : ℕ) :
    scanLoop input scanCount fuel (m, p) = (m, p) := by
  cases fuel with
  | zero => rfl
  | succ fuel => rw [scanLoop, if_neg (not_lt.2 h)]

/-- A round that ends with the last bit reaches no other ones. -/
theorem reachBehind_eq_zero (h : p.At inputStart resultOffset) (hpos : p.pos = scanCount)
    (hz : p.pos ≠ 0) : reachBehind (inputStart + scanCount) (resultOffset + scanCount) = 0 := by
  obtain ⟨hres, hinput, -, -, hst⟩ := h
  rw [reachBehind, rest, rest]
  rcases hst hz with hidx | hidx
  · omega
  · omega

/-- What two rounds reach is put together. -/
theorem and_reached {a b c : Prop} [Decidable a] [Decidable b] [Decidable c] (h : c ↔ a ∨ b) (valid source : Bool) :
    (valid && (!decide a || source) && (!decide b || source)) = (valid && (!decide c || source)) := by
  have hc : decide c = (decide a || decide b) := by
    rw [← Bool.decide_or]
    exact decide_eq_decide.2 h
  rw [hc]
  cases decide a <;> cases decide b <;> cases valid <;> cases source <;> rfl

/-- The rounds together reach the bits from the first to the last one. -/
theorem rowIsValid_scanLoop (fuel : ℕ) : ∀ (m : ValidityMask) (p : ScanPosition),
    p.At inputStart resultOffset → scanCount ≤ p.pos + fuel → p.pos < scanCount → ∀ j,
      (scanLoop input scanCount fuel (m, p)).1.rowIsValid j =
        (m.rowIsValid j && (!decide (roundBegin inputStart resultOffset p.pos ≤ j ∧
          j < resultOffset + scanCount + reachBehind (inputStart + scanCount) (resultOffset + scanCount)) ||
            sourceBit input inputStart resultOffset j)) := by
  induction fuel with
  | zero =>
    omega
  | succ fuel ih =>
    intro m p h hfuel hpos j
    obtain ⟨hat, hnx⟩ := alignEntry_at input h
    have hidx := h.result_lt
    have hinput := h.input_lt
    have hround := @rowIsValid_scanRound input inputStart resultOffset scanCount p m h hpos j
    rw [scanLoop, if_pos hpos]
    generalize hs : scanRound input scanCount (m, p) = s at hround
    obtain ⟨m', p'⟩ := s
    obtain rfl : (alignEntry input p).2 = p' := congrArg Prod.snd hs
    generalize (alignEntry input p).2 = p' at hat hnx hround
    rcases Nat.lt_or_ge p'.pos scanCount with hlt | hge
    · have hbeg : roundBegin inputStart resultOffset p'.pos = resultOffset + p'.pos := by
        rw [roundBegin, if_neg (by omega)]
      rw [roundEnd, if_pos hlt.le] at hround
      rw [ih m' p' hat (by omega) hlt j, hround, hbeg]
      refine and_reached ?_ _ _
      rw [roundBegin]
      split_ifs <;> omega
    · have hend : roundEnd inputStart resultOffset scanCount p'.pos =
          resultOffset + scanCount + reachBehind (inputStart + scanCount) (resultOffset + scanCount) := by
        rw [roundEnd]
        split_ifs with hle
        · have heq : p'.pos = scanCount := le_antisymm hle hge
          rw [reachBehind_eq_zero hat heq (by omega), heq, Nat.add_zero]
        · rfl
      rw [scanLoop_of_le hge, hround, hend]

theorem rowIsValid_unalignedScan (input : ℕ → BitVec 64) (inputStart : ℕ) (result : ValidityMask)
    (resultOffset : ℕ) {scanCount : ℕ} (hcnt : 0 < scanCount) (j : ℕ) :
    (unalignedScan input inputStart result resultOffset scanCount).rowIsValid j =
      (result.rowIsValid j && (!decide (resultOffset - reachBefore inputStart resultOffset ≤ j ∧
        j < resultOffset + scanCount + reachBehind (inputStart + scanCount) (resultOffset + scanCount)) ||
          sourceBit input inputStart resultOffset j)) :=
  rowIsValid_scanLoop scanCount result _ (at_zero inputStart resultOffset) (Nat.le_add_left _ _) hcnt j

/-! ### Scans that touch their own rows only -/

/-- What a scan is to do: the rows of the range get the bits of the input, and nothing else changes. -/
def ScansRange (input : ℕ → BitVec 64) (inputStart : ℕ) (result : ValidityMask)
    (resultOffset scanCount : ℕ) : Prop :=
  (∀ i < scanCount, (unalignedScan input inputStart result resultOffset scanCount).rowIsValid
      (resultOffset + i) = (⟨some input⟩ : ValidityMask).rowIsValid (inputStart + i)) ∧
    ∀ j, j < resultOffset ∨ resultOffset + scanCount ≤ j →
      (unalignedScan input inputStart result resultOffset scanCount).rowIsValid j = result.rowIsValid j

/-- The bits of the range are those of the input. -/
theorem rowIsValid_unalignedScan_of_lt {result : ValidityMask}
    (hres : ∀ i < scanCount, result.rowIsValid (resultOffset + i) = true) {i : ℕ} (hi : i < scanCount) :
    (unalignedScan input inputStart result resultOffset scanCount).rowIsValid (resultOffset + i) =
      (⟨some input⟩ : ValidityMask).rowIsValid (inputStart + i) := by
  have hsrc : resultOffset + i + inputStart - resultOffset = inputStart + i := by omega
  rw [rowIsValid_unalignedScan _ _ _ _ (Nat.zero_lt_of_lt hi), hres i hi, decide_eq_true (by omega), sourceBit, hsrc]
  rfl

/-- A bit stays as it is unless it is reached, valid in the result, and not valid in the input. -/
theorem and_reached_eq_iff {a : Prop} [Decidable a] (valid source : Bool) :
    (valid && (!decide a || source)) = valid ↔ (a → valid = true → source = true) := by
  by_cases h : a
  · cases valid <;> cases source <;> simp [h]
  · rw [decide_eq_false h, Bool.not_false, Bool.true_or, Bool.and_true]
    exact iff_of_true rfl fun h' => absurd h' h

/-- A scan touches its own rows only if and only if each of the other bits that it reaches is valid in the input, or
    not valid in the result anyway: those shifted along with the first input entry, and those behind the range that
    the upper mask leaves out. -/
theorem unalignedScan_iff (input : ℕ → BitVec 64) (inputStart : ℕ) {result : ValidityMask}
    {resultOffset scanCount : ℕ}
    (hresult : ∀ i < scanCount, result.rowIsValid (resultOffset + i) = true) :
    ScansRange input inputStart result resultOffset scanCount ↔ (0 < scanCount →
      (∀ k, 1 ≤ k → k ≤ reachBefore inputStart resultOffset → result.rowIsValid (resultOffset - k) = true →
        (⟨some input⟩ : ValidityMask).rowIsValid (inputStart - k) = true) ∧
      ∀ k < reachBehind (inputStart + scanCount) (resultOffset + scanCount),
        result.rowIsValid (resultOffset + scanCount + k) = true →
          (⟨some input⟩ : ValidityMask).rowIsValid (inputStart + scanCount + k) = true) := by
  rcases Nat.eq_zero_or_pos scanCount with rfl | hcnt
  · refine iff_of_true ⟨fun i hi => absurd hi (Nat.not_lt_zero i), fun j _ => rfl⟩ fun h => ?_
    exact absurd h (Nat.lt_irrefl 0)
  have hbits := rowIsValid_unalignedScan input inputStart result resultOffset hcnt
  have hbef : reachBefore inputStart resultOffset ≤ inputStart ∧
      reachBefore inputStart resultOffset ≤ resultOffset := by
    rw [reachBefore]
    split_ifs <;> omega
  rw [ScansRange, and_iff_right fun i hi => rowIsValid_unalignedScan_of_lt hresult hi, forall_prop_of_true hcnt]
  simp only [hbits, and_reached_eq_iff]
  constructor
  · intro h
    refine ⟨fun k hk hle => ?_, fun k hk => ?_⟩
    · have hsrc : resultOffset - k + inputStart - resultOffset = inputStart - k := by omega
      have hbit := h (resultOffset - k) (.inl (by omega)) ⟨by omega, by omega⟩
      rw [sourceBit, hsrc] at hbit
      exact hbit
    · have hsrc : resultOffset + scanCount + k + inputStart - resultOffset = inputStart + scanCount + k := by omega
      have hbit := h (resultOffset + scanCount + k) (.inr (by omega)) ⟨by omega, by omega⟩
      rw [sourceBit, hsrc] at hbit
      exact hbit
  · rintro ⟨hfst, hlst⟩ j hj hreached hvld
    rw [sourceBit]
    rcases hj with hj | hj
    · obtain ⟨k, hk, rfl⟩ : ∃ k, k ≤ resultOffset ∧ j = resultOffset - k :=
        ⟨resultOffset - j, Nat.sub_le _ _, by omega⟩
      have hsrc : resultOffset - k + inputStart - resultOffset = inputStart - k := by omega
      rw [hsrc]
      exact hfst k (by omega) (by omega) hvld
    · obtain ⟨k, rfl⟩ := Nat.exists_eq_add_of_le hj
      have hsrc : resultOffset + scanCount + k + inputStart - resultOffset = inputStart + scanCount + k := by omega
      rw [hsrc]
      exact hlst k (by omega) hvld

/-- A scan that ends with an input entry, of rows that are not valid. -/
theorem scansRange_nulls : (∀ i < 62, ValidityMask.new.rowIsValid (0 + i) = true) ∧
    ScansRange (fun _ => 0) 2 .new 0 62 := by
  have hvld : ∀ i < 62, ValidityMask.new.rowIsValid (0 + i) = true := fun i _ =>
    ValidityMask.rowIsValid_new _
  refine ⟨hvld, (unalignedScan_iff _ _ hvld).2 fun _ => ⟨fun k hk hle => ?_, fun k hk => ?_⟩⟩
  · have hz : reachBefore 2 0 = 0 := rfl
    omega
  · have hz : reachBehind (2 + 62) (0 + 62) = 0 := rfl
    omega

/-- The row before the second one is not valid in the input, and it is not valid in the result then. -/
theorem not_scansRange :
    ¬∀ (input : ℕ → BitVec 64) (inputStart : ℕ) (result : ValidityMask) (resultOffset scanCount : ℕ),
      (∀ i < scanCount, result.rowIsValid (resultOffset + i) = true) →
        ScansRange input inputStart result resultOffset scanCount := by
  intro h
  have hscan := (h (fun _ => BitVec.allOnes 64 <<< 1) 1 .new 1 1 fun i _ =>
    ValidityMask.rowIsValid_new _).2 0 (.inl (by decide))
  exact absurd hscan (by decide)

/-! ## Aligned scans -/

/-- An entry of the result is assigned, unless no bit is zero in the result and in the entry. -/
def copyEntry (input : ℕ → BitVec 64) (startOffset : ℕ) (m : ValidityMask) (i : ℕ) : ValidityMask :=
  let inputEntry := input (startOffset + i)
  if m.validityMask.isNone && inputEntry = BitVec.allOnes 64 then m
  else ⟨some (update (m.validityMask.getD fun _ => BitVec.allOnes 64) i inputEntry)⟩

/-- `ValidityUncompressed::AlignedScan` -/
def alignedScan (input : ℕ → BitVec 64) (inputStart : ℕ) (result : ValidityMask) (scanCount : ℕ) : ValidityMask :=
  (range ((scanCount + 63) / 64)).foldl (copyEntry input (inputStart / 64)) result

theorem getValidityEntry_copyEntry (input : ℕ → BitVec 64) (startOffset : ℕ) (m : ValidityMask) (i k : ℕ) :
    (copyEntry input startOffset m i).getValidityEntry k =
      if k = i then input (startOffset + i) else m.getValidityEntry k := by
  rw [copyEntry]
  obtain ⟨_ | entries⟩ := m
  · by_cases hones : input (startOffset + i) = BitVec.allOnes 64
    · rw [if_pos (by rw [hones]; decide), hones]
      exact (ite_self _).symm
    · rw [if_neg fun h => hones (of_decide_eq_true (Bool.and_eq_true_iff.1 h).2)]
      exact update_apply ..
  · exact update_apply ..

/-- The rows get the bits of the input. -/
theorem rowIsValid_alignedScan {input : ℕ → BitVec 64} {inputStart scanCount : ℕ}
    (hst : inputStart % 64 = 0) (result : ValidityMask) {i : ℕ} (hi : i < scanCount) :
    (alignedScan input inputStart result scanCount).rowIsValid i =
      (⟨some input⟩ : ValidityMask).rowIsValid (inputStart + i) := by
  have hents : ∀ n k, ((range n).foldl (copyEntry input (inputStart / 64)) result).getValidityEntry k =
      if k < n then input (inputStart / 64 + k) else result.getValidityEntry k := by
    intro n k
    induction n with
    | zero => rfl
    | succ n ih =>
      rw [range_succ, foldl_append, foldl_cons, foldl_nil, getValidityEntry_copyEntry, ih]
      rcases Nat.lt_trichotomy k n with hlt | rfl | hgt
      · rw [if_neg hlt.ne, if_pos hlt, if_pos (by omega)]
      · rw [if_pos rfl, if_pos (Nat.lt_succ_self k)]
      · rw [if_neg hgt.ne', if_neg (by omega), if_neg (by omega)]
  have hdiv : (inputStart + i) / 64 = inputStart / 64 + i / 64 := by omega
  have hmod : (inputStart + i) % 64 = i % 64 := by omega
  rw [ValidityMask.rowIsValid, alignedScan, hents, if_pos (by omega), ValidityMask.rowIsValid, hdiv, hmod]
  rfl

end ValidityUncompressed

end WfOpt

import WfOpt.Lib.Memory
import WfOpt.Storage.Compression.HugeIntPacker

/-!
# Packing of integers

Integers of 8 to 128 bits are packed in blocks of 32 values, with `width` bits for each one, so that a
block takes `4 * width` bytes. The values of one word are packed by a library, those of 128 bits by
`HugeIntPacker`; all that is known of a packer is that the lower `width` bits of each value can be read
back (`BlockPacker`). A buffer is packed block by block, the last one filled up with zeros.
-/

namespace WfOpt

open Nat List

/-! ## Integer types -/

/-- The types of the values that can be packed. -/
inductive IntegralType
  | int8 | int16 | int32 | int64 | hugeint | uint8 | uint16 | uint32 | uint64 | uhugeint
  deriving DecidableEq

namespace IntegralType

/-- `sizeof` -/
def size : IntegralType → ℕ
  | int8 | uint8 => 1
  | int16 | uint16 => 2
  | int32 | uint32 => 4
  | int64 | uint64 => 8
  | hugeint | uhugeint => 16

/-- `NumericLimits::IsSigned` -/
def isSigned : IntegralType → Bool
  | int8 | int16 | int32 | int64 | hugeint => true
  | uint8 | uint16 | uint32 | uint64 | uhugeint => false

/-- The bits of a value. -/
def bits (T : IntegralType) : ℕ := 8 * T.size

/-- The values. Casts between signed and unsigned types of one size keep the bits. -/
abbrev Value (T : IntegralType) := BitVec T.bits

section

variable (T : IntegralType)

theorem size_pos : 0 < T.size := by
  cases T <;> decide

theorem bits_le : T.bits ≤ 128 := by
  cases T <;> decide

theorem le_bits : 8 ≤ T.bits := by
  cases T <;> decide

theorem bits_pos : 0 < T.bits := Nat.lt_of_lt_of_le (by decide) T.le_bits

theorem two_pow_bits : 2 ^ T.bits = 256 ^ T.size := by
  rw [bits, pow_mul]
  rfl

end

instance (T : IntegralType) : Storable T.Value where
  size := T.size
  size_pos := T.size_pos
  toBytes x := littleEndian T.size x.toNat
  ofBytes b := BitVec.ofNat T.bits (ofLittleEndian b)
  length_toBytes x := length_littleEndian T.size _
  ofBytes_toBytes x := by
    have hlt : x.toNat < 256 ^ T.size := x.isLt.trans_eq T.two_pow_bits
    rw [ofLittleEndian_littleEndian, Nat.mod_eq_of_lt hlt, BitVec.ofNat_toNat, BitVec.setWidth_eq]

end IntegralType

/-! ## Arithmetic -/

section Numeric

variable {w : ℕ} (isSigned : Bool) (x y : BitVec w)

/-- The number that a value of a signed or an unsigned type stands for. -/
def numericValue : ℤ := if isSigned then x.toInt else x.toNat

/-- `NumericLimits::Minimum` -/
def numericMinimum (w : ℕ) (isSigned : Bool) : BitVec w := if isSigned then BitVec.intMin w else 0

/-- `NumericLimits::Maximum` -/
def numericMaximum (w : ℕ) (isSigned : Bool) : BitVec w := if isSigned then BitVec.intMax w else BitVec.allOnes w

/-- `MinValue` -/
def minValue : BitVec w := if numericValue isSigned x < numericValue isSigned y then x else y

/-- `MaxValue` -/
def maxValue : BitVec w := if numericValue isSigned y < numericValue isSigned x then x else y

/-- `TrySubtractOperator::Operation` -/
def trySubtractOperator : Option (BitVec w) := let result := numericValue isSigned x - numericValue isSigned y
  if numericValue isSigned (numericMinimum w isSigned) ≤ result ∧
      result ≤ numericValue isSigned (numericMaximum w isSigned) then some (x - y)
  else none

end Numeric

section NumericLemmas

variable {w : ℕ} {isSigned : Bool} {x y z d : BitVec w}

theorem numericValue_inj : numericValue isSigned x = numericValue isSigned y ↔ x = y := by
  cases isSigned with
  | false => exact Int.natCast_inj.trans BitVec.toNat_inj
  | true => exact BitVec.toInt_inj

theorem le_numericMaximum (isSigned : Bool) (x : BitVec w) :
    numericValue isSigned x ≤ numericValue isSigned (numericMaximum w isSigned) := by
  cases isSigned with
  | false =>
    have hmax := @BitVec.toNat_allOnes w
    change (x.toNat : ℤ) ≤ (BitVec.allOnes w).toNat
    omega
  | true =>
    change x.toInt ≤ (BitVec.intMax w).toInt
    rw [BitVec.toInt_intMax]
    exact Int.le_sub_one_of_lt BitVec.toInt_lt

theorem numericMinimum_le (hw : 0 < w) (isSigned : Bool) (x : BitVec w) :
    numericValue isSigned (numericMinimum w isSigned) ≤ numericValue isSigned x := by
  cases isSigned with
  | false => exact Int.natCast_nonneg _
  | true =>
    have hlt : 2 ^ (w - 1) < 2 ^ w := Nat.pow_lt_pow_right (by decide) (sub_lt hw Nat.one_pos)
    change (BitVec.intMin w).toInt ≤ x.toInt
    rw [BitVec.toInt_intMin, mod_eq_of_lt hlt, cast_pow]
    exact x.le_toInt

theorem minValue_le (isSigned : Bool) (x y : BitVec w) :
    numericValue isSigned (minValue isSigned x y) ≤ numericValue isSigned x ∧
      numericValue isSigned (minValue isSigned x y) ≤ numericValue isSigned y := by
  rw [minValue]
  split
  case isTrue hlt => exact ⟨le_rfl, hlt.le⟩
  case isFalse hge => exact ⟨not_lt.1 hge, le_rfl⟩

theorem le_maxValue (isSigned : Bool) (x y : BitVec w) :
    numericValue isSigned x ≤ numericValue isSigned (maxValue isSigned x y) ∧
      numericValue isSigned y ≤ numericValue isSigned (maxValue isSigned x y) := by
  rw [maxValue]
  split
  case isTrue hlt => exact ⟨le_rfl, hlt.le⟩
  case isFalse hge => exact ⟨not_lt.1 hge, le_rfl⟩

theorem toNat_eq_numericValue (h : 0 ≤ numericValue isSigned x) : (x.toNat : ℤ) = numericValue isSigned x := by
  cases isSigned with
  | false => rfl
  | true =>
    change 0 ≤ x.toInt at h
    change (x.toNat : ℤ) = x.toInt
    rw [BitVec.toInt_eq_toNat_cond] at h ⊢
    split at h <;> omega

/-- A difference that can be represented is the one of the numbers. -/
theorem numericValue_sub (hmin : numericValue isSigned (numericMinimum w isSigned) ≤
      numericValue isSigned x - numericValue isSigned y)
    (hmax : numericValue isSigned x - numericValue isSigned y ≤
      numericValue isSigned (numericMaximum w isSigned)) (hw : 0 < w) :
    numericValue isSigned (x - y) = numericValue isSigned x - numericValue isSigned y := by
  cases isSigned with
  | false =>
    change (0 : ℤ) ≤ x.toNat - y.toNat at hmin
    have hle : y ≤ x := BitVec.le_def.2 (by omega)
    have hsub := BitVec.toNat_sub_of_le hle
    change ((x - y).toNat : ℤ) = x.toNat - y.toNat
    omega
  | true =>
    obtain ⟨k, rfl⟩ : ∃ k, w = k + 1 := ⟨w - 1, by omega⟩
    have hlt : 2 ^ k < 2 ^ (k + 1) := Nat.pow_lt_pow_right (by decide) (lt_succ_self k)
    change (BitVec.intMin (k + 1)).toInt ≤ x.toInt - y.toInt at hmin
    change x.toInt - y.toInt ≤ (BitVec.intMax (k + 1)).toInt at hmax
    change (x - y).toInt = x.toInt - y.toInt
    rw [BitVec.toInt_intMin, Nat.add_sub_cancel, mod_eq_of_lt hlt, cast_pow] at hmin
    rw [BitVec.toInt_intMax, Nat.add_sub_cancel] at hmax
    rw [BitVec.toInt_sub]
    refine Int.bmod_eq_of_le ?_ ?_ <;> push_cast at * <;> omega

theorem trySubtractOperator_eq_some (hw : 0 < w) (h : trySubtractOperator isSigned x y = some d) :
    d = x - y ∧ numericValue isSigned d = numericValue isSigned x - numericValue isSigned y := by
  rw [trySubtractOperator] at h
  split at h
  case isTrue hrng => exact Option.some.inj h ▸ ⟨rfl, numericValue_sub hrng.1 hrng.2 hw⟩
  case isFalse => exact nomatch h

/-- The differences to a value are not greater than that of a greater value, whose difference does not overflow. -/
theorem toNat_sub_le (hw : 0 < w) (h : trySubtractOperator isSigned x y = some d)
    (hyz : numericValue isSigned y ≤ numericValue isSigned z)
    (hzx : numericValue isSigned z ≤ numericValue isSigned x) : (z - y).toNat ≤ d.toNat := by
  obtain ⟨-, hd⟩ := trySubtractOperator_eq_some hw h
  have hmin := numericMinimum_le hw isSigned (0 : BitVec w)
  have hmax := le_numericMaximum isSigned d
  have hz : numericValue isSigned (0 : BitVec w) = 0 := by cases isSigned <;> simp [numericValue]
  have hsub := @numericValue_sub w isSigned z y (by omega) (by omega) hw
  have hzy := @toNat_eq_numericValue w isSigned (z - y) (by omega)
  have hxy := @toNat_eq_numericValue w isSigned d (by omega)
  omega

end NumericLemmas

/-! ## Packers of a block -/

/-- A packer of blocks of 32 values: the lower `width` bits of each value can be read back. -/
structure BlockPacker (w : ℕ) where
  /-- The bytes of a block. -/
  packBlock : (ℕ → BitVec w) → ℕ → List UInt8
  /-- A value of the block that has the bytes. -/
  unPackBlock : List UInt8 → ℕ → ℕ → BitVec w
  length_packBlock : ∀ src width, (packBlock src width).length = 4 * width
  toNat_unPackBlock : ∀ src width, width ≤ w → ∀ i < 32,
    (unPackBlock (packBlock src width) width i).toNat = (src i).toNat % 2 ^ width

/-! ### Values as a stream -/

section Stream

/-- The number whose bits are those of `n` values, one after another. -/
def streamNumber (width : ℕ) : (ℕ → ℕ) → ℕ → ℕ
  | _, 0 => 0
  | v, n + 1 => v 0 % 2 ^ width + 2 ^ width * streamNumber width (fun i => v (i + 1)) n

theorem streamNumber_lt (width n : ℕ) : ∀ v, streamNumber width v n < 2 ^ (width * n) := by
  induction n with
  | zero =>
    intro v
    exact Nat.one_pos
  | succ n ih =>
    intro v
    have hrst := Nat.mul_le_mul_left (2 ^ width) (succ_le_of_lt (ih fun i => v (i + 1)))
    rw [streamNumber, mul_succ, Nat.add_comm (width * n), pow_add]
    rw [succ_eq_add_one, Nat.mul_add, Nat.mul_one] at hrst
    omega

theorem streamNumber_div (width n : ℕ) : ∀ v, ∀ i < n,
    streamNumber width v n / 2 ^ (width * i) % 2 ^ width = v i % 2 ^ width := by
  induction n with
  | zero => exact fun v i hi => absurd hi (Nat.not_lt_zero i)
  | succ n ih =>
    intro v i hi
    have hfst : v 0 % 2 ^ width < 2 ^ width := mod_lt _ (Nat.two_pow_pos width)
    cases i with
    | zero =>
      rw [streamNumber, Nat.mul_zero, pow_zero, Nat.div_one, add_mul_mod_self_left, mod_mod]
    | succ i =>
      rw [streamNumber, mul_succ, Nat.add_comm (width * i), pow_add, ← Nat.div_div_eq_div_mul,
        add_mul_div_left _ _ (Nat.two_pow_pos width), div_eq_of_lt hfst, Nat.zero_add]
      exact ih _ i (lt_of_succ_lt_succ hi)

/-- The packer that writes the bits of the values one after another. -/
def streamPacker (w : ℕ) : BlockPacker w where
  packBlock src width := littleEndian (4 * width) (streamNumber width (fun i => (src i).toNat) 32)
  unPackBlock bytes width i := BitVec.ofNat w (ofLittleEndian bytes / 2 ^ (width * i) % 2 ^ width)
  length_packBlock src width := length_littleEndian _ _
  toNat_unPackBlock src width hwidth i hi := by
    have hlt : streamNumber width (fun i => (src i).toNat) 32 < 256 ^ (4 * width) := by
      have hpow : 256 ^ (4 * width) = 2 ^ (width * 32) := by
        rw [show 256 = 2 ^ 8 from rfl, ← pow_mul]
        exact congrArg (2 ^ ·) (by ring)
      exact (streamNumber_lt width 32 _).trans_eq hpow.symm
    have hvalue : (src i).toNat % 2 ^ width < 2 ^ w :=
      (Nat.mod_lt _ (Nat.two_pow_pos width)).trans_le (Nat.pow_le_pow_right (by decide) hwidth)
    rw [ofLittleEndian_littleEndian, Nat.mod_eq_of_lt hlt, streamNumber_div _ _ _ i hi, BitVec.toNat_ofNat,
      Nat.mod_eq_of_lt hvalue]

end Stream

/-! ### Values of 128 bits -/

namespace UHugeInt

/-- The words of a value of 128 bits. -/
def ofBits (x : BitVec 128) : UHugeInt := ⟨x.extractLsb' 64 64, x.extractLsb' 0 64⟩

/-- The bits of the words. -/
def toBits (x : UHugeInt) : BitVec 128 := BitVec.ofNat 128 x.toNat

@[simp] theorem toNat_toBits (x : UHugeInt) : x.toBits.toNat = x.toNat := by
  rw [toBits, BitVec.toNat_ofNat, mod_eq_of_lt x.toNat_lt]

@[simp] theorem toNat_ofBits (x : BitVec 128) : (ofBits x).toNat = x.toNat := by
  rw [ofBits, toNat, BitVec.extractLsb'_toNat, BitVec.extractLsb'_toNat, shiftRight_eq_div_pow,
    shiftRight_eq_div_pow, pow_zero, Nat.div_one]
  omega

end UHugeInt

namespace HugeIntPacker

/-- The word of a block at an index. -/
def wordAt (bytes : List UInt8) (c : ℕ) : BitVec 32 := BitVec.ofNat 32 (ofLittleEndian ((bytes.drop (4 * c)).take 4))

/-- The bytes of words. -/
def bytesOf (words : ℕ → BitVec 32) (n : ℕ) : List UInt8 := (range n).flatMap fun c => littleEndian 4 (words c).toNat

theorem wordAt_bytesOf (words : ℕ → BitVec 32) {n c : ℕ} (hc : c < n) : wordAt (bytesOf words n) c = words c := by
  have hword : (words c).toNat < 256 ^ 4 := (words c).isLt
  rw [wordAt, bytesOf, take_drop_flatMap_range (fun _ => length_littleEndian 4 _) n c hc,
    ofLittleEndian_littleEndian, mod_eq_of_lt hword, BitVec.ofNat_toNat, BitVec.setWidth_eq]

/-- The words are packed wherever the block is: what is written does not depend on what they were. -/
def blockPacker : BlockPacker 128 where
  packBlock src width := bytesOf (pack (fun i => .ofBits (src i)) (fun _ => 0) width) width
  unPackBlock bytes width i := (unpack (wordAt bytes) (fun _ => 0) width i).toBits
  length_packBlock src width := length_flatMap_range (fun _ => length_littleEndian 4 _) width
  toNat_unPackBlock src width hwidth i hi := by
    have hwords : ∀ c < width, HasBits (stream (fun i => .ofBits (src i)) width) (32 * c) 32
        (wordAt (bytesOf (pack (fun i => .ofBits (src i)) (fun _ => 0) width) width) c).toNat := by
      intro c hc
      have hbits := (written_pack (fun i => .ofBits (src i)) (fun _ => 0) hwidth).bits c (by omega)
      rw [min_eq_left (by omega)] at hbits
      rwa [wordAt_bytesOf _ hc]
    rw [UHugeInt.toNat_toBits, unpack_spec hwords _ hwidth i hi, UHugeInt.toNat_ofBits]

end HugeIntPacker

/-- `PackGroup` and `UnPackGroup`: values of 128 bits have their own packer. -/
def packer (fastPForLib : ∀ w, BlockPacker w) : ∀ T : IntegralType, BlockPacker T.bits
  | .hugeint => HugeIntPacker.blockPacker
  | .uhugeint => HugeIntPacker.blockPacker
  | T => fastPForLib T.bits

/-! ## Widths -/

/-- `GetEffectiveWidth`: widths that spare less than a bit for each byte are not used. -/
def getEffectiveWidth (T : IntegralType) (width : ℕ) : ℕ := if T.bits < width + T.size then T.bits else width

/-- `FindMinimumBitWidth`, for one value as the minimum and the maximum. -/
def minimumBitWidth (T : IntegralType) (isSigned : Bool) (value : T.Value) : ℕ :=
  if isSigned ∧ value = numericMinimum T.bits T.isSigned then T.bits
  else
    let value := if isSigned then maxValue T.isSigned (-value) value else value
    if value = 0 then 0
    else
      -- the loop shifts the value to the right until nothing is left of it
      getEffectiveWidth T ((if isSigned then 1 else 0) + Nat.size value.toNat)

theorem lt_two_pow_minimumBitWidth {T : IntegralType} (value : T.Value) :
    value.toNat < 2 ^ minimumBitWidth T false value := by
  rw [minimumBitWidth, if_neg (fun h => Bool.false_ne_true h.1), if_neg Bool.false_ne_true]
  by_cases hz : value = 0
  · rw [if_pos hz, hz, pow_zero]
    exact Nat.one_pos
  · rw [if_neg hz, if_neg Bool.false_ne_true, Nat.zero_add, getEffectiveWidth]
    split
    · exact value.isLt
    · exact lt_size_self _

theorem minimumBitWidth_le {T : IntegralType} (value : T.Value) : minimumBitWidth T false value ≤ T.bits := by
  rw [minimumBitWidth, if_neg (fun h => Bool.false_ne_true h.1), if_neg Bool.false_ne_true]
  by_cases hz : value = 0
  · rw [if_pos hz]
    exact Nat.zero_le _
  · rw [if_neg hz, if_neg Bool.false_ne_true, Nat.zero_add, getEffectiveWidth]
    split
    · exact le_rfl
    · exact size_le.2 value.isLt

/-! ## Buffers -/

/-- `BITPACKING_ALGORITHM_GROUP_SIZE` -/
abbrev bitpackingAlgorithmGroupSize : ℕ := 32

/-- `RoundUpToAlgorithmGroupSize` -/
def roundUpToAlgorithmGroupSize (numToRound : ℕ) : ℕ := let remainder := numToRound % bitpackingAlgorithmGroupSize
  if remainder = 0 then numToRound else numToRound + bitpackingAlgorithmGroupSize - remainder

/-- `GetRequiredSize` -/
def getRequiredSize (count width : ℕ) : ℕ := roundUpToAlgorithmGroupSize count * width / 8

namespace BlockPacker

variable {w : ℕ} (p : BlockPacker w)

/-- `PackBuffer`: the bytes of the whole blocks, and of the block that is filled up with zeros. -/
def packBuffer (src : ℕ → BitVec w) (count width : ℕ) : List UInt8 :=
  let misalignedCount := count % bitpackingAlgorithmGroupSize
  let count := count - misalignedCount
  ((range (count / bitpackingAlgorithmGroupSize)).flatMap fun g =>
      p.packBlock (fun j => src (bitpackingAlgorithmGroupSize * g + j)) width) ++
    if misalignedCount ≠ 0 then
      p.packBlock (fun j => if j < misalignedCount then src (count + j) else 0) width
    else []

/-- The values of a block are those of the buffer, as far as it has some. -/
theorem packBlock_packBuffer (src : ℕ → BitVec w) {count g : ℕ} (width : ℕ) (hg : 32 * g < count) :
    ∃ src', (∀ j < 32, 32 * g + j < count → src' j = src (32 * g + j)) ∧
      ((p.packBuffer src count width).drop (4 * width * g)).take (4 * width) = p.packBlock src' width := by
  have hblks : ∀ g, (p.packBlock (fun j => src (32 * g + j)) width).length = 4 * width := fun g =>
    p.length_packBlock _ _
  have hlen := length_flatMap_range hblks ((count - count % 32) / 32)
  rw [packBuffer]
  dsimp only [bitpackingAlgorithmGroupSize]
  rcases Nat.lt_or_ge g ((count - count % 32) / 32) with hlt | hge
  · have hle : 4 * width * g + 4 * width ≤ 4 * width * ((count - count % 32) / 32) :=
      Nat.mul_le_mul_left (4 * width) hlt
    refine ⟨_, fun _ _ _ => rfl, ?_⟩
    rw [drop_append_of_le_length (by omega), take_append_of_le_length (by rw [length_drop]; omega),
      take_drop_flatMap_range hblks _ g hlt]
  · -- the last block is not full
    have hlst : g = (count - count % 32) / 32 := by omega
    have hcnt : count - count % 32 = 32 * g := by omega
    refine ⟨fun j => if j < count % 32 then src (32 * g + j) else 0, fun j _ hj => if_pos (by omega), ?_⟩
    rw [if_pos (by omega), hlst, ← hlen, drop_left, ← hlst, hcnt, take_of_length_le (p.length_packBlock _ _).le]

theorem length_packBuffer (src : ℕ → BitVec w) (count width : ℕ) :
    (p.packBuffer src count width).length = getRequiredSize count width := by
  have hblks : ∀ g, (p.packBlock (fun j => src (32 * g + j)) width).length = 4 * width := fun g =>
    p.length_packBlock _ _
  rw [packBuffer, getRequiredSize, roundUpToAlgorithmGroupSize]
  rw [length_append, length_flatMap_range hblks]
  have hmul : ∀ n, 32 * n * width / 8 = 4 * width * n := fun n => by
    rw [show 32 * n * width = 8 * (4 * width * n) by ring, Nat.mul_div_cancel_left _ (by decide)]
  by_cases hz : count % 32 = 0
  · obtain ⟨n, rfl⟩ : ∃ n, count = 32 * n := ⟨count / 32, by omega⟩
    rw [if_pos hz, if_neg (not_not.2 hz), hz, Nat.sub_zero, hmul, length_nil, Nat.add_zero,
      Nat.mul_div_cancel_left _ (by decide)]
  · have hround : count + 32 - count % 32 = 32 * ((count - count % 32) / 32 + 1) := by omega
    rw [if_neg hz, if_pos hz, hround, hmul, p.length_packBlock, mul_succ]

end BlockPacker

end WfOpt

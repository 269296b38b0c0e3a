import WfOpt.Common.HugeInt

/-!
# Products of 128 bits

`Hugeint::TryMultiply` multiplies the magnitudes, as numbers of 128 bits or as four limbs of 32 bits, and puts the
sign back. Both ways refuse the products of 127 bits and more (`inRange_multiplyInt128`, `inRange_multiplyLimbs`),
which is one too many: `-2 ^ 127` has no magnitude (`exact_iff`). `Hugeint::Multiply<false>` refuses nothing: its
product is one modulo `2 ^ 128`.
-/

namespace WfOpt

set_option maxRecDepth 10000

open Nat Option

namespace HugeInt

/-! ## Four limbs -/

/-- The values are split into four parts of 32 bits. -/
def limbs (x : HugeInt) : Fin 4 → BitVec 64
  | 0 => x.upper >>> 32
  | 1 => x.upper &&& 0xffffffff
  | 2 => x.lower >>> 32
  | 3 => x.lower &&& 0xffffffff

/-- Each component of the values is multiplied. -/
def products (lhs rhs : HugeInt) (x y : Fin 4) : BitVec 64 := lhs.limbs x * rhs.limbs y

/-- The digits of a product. -/
structure Digits where
  first32 : BitVec 64
  second32 : BitVec 64
  third32 : BitVec 64
  fourth32 : BitVec 64

/-- The results of the different products are merged in order. -/
def mergeProducts (products : Fin 4 → Fin 4 → BitVec 64) : Digits :=
  -- first row
  let fourth32 := products 3 3 &&& 0xffffffff
  let third32 := (products 3 2 &&& 0xffffffff) + (products 3 3 >>> 32)
  let second32 := (products 3 1 &&& 0xffffffff) + (products 3 2 >>> 32)
  let first32 := (products 3 0 &&& 0xffffffff) + (products 3 1 >>> 32)
  -- second row
  let third32 := third32 + (products 2 3 &&& 0xffffffff)
  let second32 := second32 + ((products 2 2 &&& 0xffffffff) + (products 2 3 >>> 32))
  let first32 := first32 + ((products 2 1 &&& 0xffffffff) + (products 2 2 >>> 32))
  -- third row
  let second32 := second32 + (products 1 3 &&& 0xffffffff)
  let first32 := first32 + ((products 1 2 &&& 0xffffffff) + (products 1 3 >>> 32))
  -- fourth row
  let first32 := first32 + (products 0 3 &&& 0xffffffff)
  -- move carry to next digit
  let third32 := third32 + (fourth32 >>> 32)
  let second32 := second32 + (third32 >>> 32)
  let first32 := first32 + (second32 >>> 32)
  ⟨first32, second32, third32, fourth32⟩

/-- The carry is removed from each digit, and the components are combined. -/
def Digits.combine (digits : Digits) : HugeInt :=
  ⟨((digits.first32 &&& 0xffffffff) <<< 32) ||| (digits.second32 &&& 0xffffffff),
    ((digits.third32 &&& 0xffffffff) <<< 32) ||| (digits.fourth32 &&& 0xffffffff)⟩

/-- The products of four limbs, checked. -/
def multiplyLimbs (lhs rhs : HugeInt) : Option HugeInt := let p := products lhs rhs
  let digits := mergeProducts p
  if p 0 0 ≠ 0 ∨ p 0 1 ≠ 0 ∨ p 0 2 ≠ 0 ∨ p 1 0 ≠ 0 ∨ p 2 0 ≠ 0 ∨ p 1 1 ≠ 0 then none
  else if p 0 3 &&& 0xffffffff80000000 ≠ 0 ∨ p 1 2 &&& 0xffffffff80000000 ≠ 0 ∨
      p 2 1 &&& 0xffffffff80000000 ≠ 0 ∨ p 3 0 &&& 0xffffffff80000000 ≠ 0 then none
  else if digits.first32 &&& 0xffffff80000000 ≠ 0 then none
  else some digits.combine

/-! ## Integers of 128 bits -/

/-- The conversion to a `__uint128_t`. -/
def toUInt128 (x : HugeInt) : BitVec 128 := x.lower.setWidth 128 + (x.upper.signExtend 128 <<< 64)

/-- The conversion of a `__uint128_t`. -/
def ofUInt128 (value : BitVec 128) : HugeInt :=
  ⟨(value >>> 64).setWidth 64, (value &&& 0xffffffffffffffff).setWidth 64⟩

/-- The product of a compiler with integers of 128 bits, checked. -/
def multiplyInt128 (lhs rhs : HugeInt) : Option HugeInt := let result := ofUInt128 (lhs.toUInt128 * rhs.toUInt128)
  if BitVec.umulOverflow lhs.toUInt128 rhs.toUInt128 then none
  else if result.upper &&& 0x8000000000000000 ≠ 0 then none
  else some result

/-! ## Signs -/

/-- `Hugeint::TryMultiply`, with a product of magnitudes. -/
def tryMultiplyWith (magnitudes : HugeInt → HugeInt → Option HugeInt) (lhs rhs : HugeInt) : Option HugeInt :=
  if lhs = minimum ∨ rhs = minimum then
    if lhs = 0 ∨ rhs = 0 then some 0
    else if lhs = 1 ∨ rhs = 1 then some minimum
    else none
  else
    let lhsNegative := lhs.upper.slt 0
    let rhsNegative := rhs.upper.slt 0
    (if lhsNegative then lhs.tryNegate else some lhs).bind fun lhs =>
      (if rhsNegative then rhs.tryNegate else some rhs).bind fun rhs =>
        (magnitudes lhs rhs).map fun result =>
          if lhsNegative ^^ rhsNegative then result.negateInPlace else result

/-- `Hugeint::TryMultiply`, where the compiler has integers of 128 bits. -/
def tryMultiply : HugeInt → HugeInt → Option HugeInt := tryMultiplyWith multiplyInt128

/-- `Hugeint::TryMultiply`, of four limbs. -/
def tryMultiplyPortable : HugeInt → HugeInt → Option HugeInt := tryMultiplyWith multiplyLimbs

/-- `Hugeint::Multiply<false>`, with a product of magnitudes. -/
def multiplyWith (magnitudes : HugeInt → HugeInt → HugeInt) (lhs rhs : HugeInt) : HugeInt :=
  let lhsNegative := lhs.upper.slt 0
  let rhsNegative := rhs.upper.slt 0
  let result := magnitudes (if lhsNegative then lhs.negateInPlace else lhs)
    (if rhsNegative then rhs.negateInPlace else rhs)
  if lhsNegative ^^ rhsNegative then result.negateInPlace else result

/-- `Hugeint::Multiply<false>`, where the compiler has integers of 128 bits. -/
def multiply : HugeInt → HugeInt → HugeInt := multiplyWith fun lhs rhs => ofUInt128 (lhs.toUInt128 * rhs.toUInt128)

/-- `Hugeint::Multiply<false>`, of four limbs. -/
def multiplyPortable : HugeInt → HugeInt → HugeInt :=
  multiplyWith fun lhs rhs => (mergeProducts (products lhs rhs)).combine

instance : Mul HugeInt := ⟨multiply⟩

/-! ## Digits -/

/-- The lower half of a word. -/
theorem toNat_low (word : BitVec 64) : (word &&& 0xffffffff).toNat = word.toNat % 2 ^ 32 := by
  exact and_two_pow_sub_one_eq_mod word.toNat 32

/-- The upper half of a word. -/
theorem toNat_high (word : BitVec 64) : (word >>> 32).toNat = word.toNat / 2 ^ 32 := by
  rw [BitVec.toNat_ushiftRight, shiftRight_eq_div_pow]

theorem toNat_combine (high low : BitVec 64) : (((high &&& 0xffffffff) <<< 32) ||| (low &&& 0xffffffff)).toNat =
      high.toNat % 2 ^ 32 * 2 ^ 32 + low.toNat % 2 ^ 32 := by
  have hsh : ((high &&& 0xffffffff) <<< 32).toNat = (high.toNat % 2 ^ 32) <<< 32 := by
    rw [BitVec.toNat_shiftLeft, toNat_low, shiftLeft_eq]
    omega
  rw [BitVec.toNat_or, hsh, toNat_low, ← shiftLeft_add_eq_or_of_lt (by omega), shiftLeft_eq]

/-- The number of the unsigned words. -/
def toNat (x : HugeInt) : ℕ := x.upper.toNat * 2 ^ 64 + x.lower.toNat

theorem toNat_lt (x : HugeInt) : x.toNat < 2 ^ 128 := by
  rw [toNat]
  omega

theorem modEq_toNat (x : HugeInt) : x.toInt ≡ x.toNat [ZMOD 2 ^ 128] := by
  exact modEq_words x

/-- Numbers that are not negative are those of the unsigned words. -/
theorem toInt_eq_toNat {x : HugeInt} (h : x.toNat < 2 ^ 127) : x.toInt = x.toNat :=
  toInt_eq_of_modEq (modEq_toNat x) (by rw [InRange]; omega)

theorem toNat_lt_of_nonneg {x : HugeInt} (h : 0 ≤ x.toInt) : x.toNat < 2 ^ 127 := by
  have hx := modEq_toNat x
  have hrng := x.inRange_toInt
  have hlt := x.toNat_lt
  rw [InRange] at hrng
  rw [Int.ModEq] at hx
  omega

/-- The number of four digits, carries and all. -/
def Digits.value (digits : Digits) : ℕ := digits.first32.toNat * 2 ^ 96 + digits.second32.toNat % 2 ^ 32 * 2 ^ 64 +
    digits.third32.toNat % 2 ^ 32 * 2 ^ 32 + digits.fourth32.toNat % 2 ^ 32

/-- The last carry is what is removed. -/
theorem Digits.toNat_combine (digits : Digits) : digits.combine.toNat = digits.value % 2 ^ 128 := by
  rw [combine, value, toNat, HugeInt.toNat_combine, HugeInt.toNat_combine]
  omega

theorem halves_spec (word : BitVec 64) : ∃ low high : ℕ, low < 2 ^ 32 ∧ high < 2 ^ 32 ∧
    word.toNat = high * 2 ^ 32 + low ∧ (word &&& 0xffffffff).toNat = low ∧ (word >>> 32).toNat = high := by
  refine ⟨word.toNat % 2 ^ 32, word.toNat / 2 ^ 32, ?_, ?_, ?_, toNat_low word, toNat_high word⟩ <;> omega

/-- A sum of words without a carry. -/
theorem toNat_add_of_eq {a b : BitVec 64} {m n : ℕ} (ha : a.toNat = m) (hb : b.toNat = n) (h : m + n < 2 ^ 64) :
    (a + b).toNat = m + n := by
  rw [BitVec.toNat_add, ha, hb, mod_eq_of_lt h]

/-- The columns of the products are the digits: only what is past the first digit is left out. -/
theorem mergeProducts_spec (p : Fin 4 → Fin 4 → BitVec 64) : (mergeProducts p).first32.toNat < 2 ^ 36 ∧
      (mergeProducts p).value =
        ((p 3 0).toNat % 2 ^ 32 + (p 2 1).toNat % 2 ^ 32 + (p 1 2).toNat % 2 ^ 32 + (p 0 3).toNat % 2 ^ 32) * 2 ^ 96 +
          ((p 3 1).toNat + (p 2 2).toNat + (p 1 3).toNat) * 2 ^ 64 +
          ((p 3 2).toNat + (p 2 3).toNat) * 2 ^ 32 + (p 3 3).toNat := by
  obtain ⟨l33, h33, hl33, hh33, heq33, hlow33, hhigh33⟩ := halves_spec (p 3 3)
  obtain ⟨l32, h32, hl32, hh32, heq32, hlow32, hhigh32⟩ := halves_spec (p 3 2)
  obtain ⟨l31, h31, hl31, hh31, heq31, hlow31, hhigh31⟩ := halves_spec (p 3 1)
  obtain ⟨l23, h23, hl23, hh23, heq23, hlow23, hhigh23⟩ := halves_spec (p 2 3)
  obtain ⟨l22, h22, hl22, hh22, heq22, hlow22, hhigh22⟩ := halves_spec (p 2 2)
  obtain ⟨l13, h13, hl13, hh13, heq13, hlow13, hhigh13⟩ := halves_spec (p 1 3)
  have hl30 : (p 3 0).toNat % 2 ^ 32 < 2 ^ 32 := mod_lt _ (by decide)
  have hl21 : (p 2 1).toNat % 2 ^ 32 < 2 ^ 32 := mod_lt _ (by decide)
  have hl12 : (p 1 2).toNat % 2 ^ 32 < 2 ^ 32 := mod_lt _ (by decide)
  have hl03 : (p 0 3).toNat % 2 ^ 32 < 2 ^ 32 := mod_lt _ (by decide)
  have hlow30 := toNat_low (p 3 0)
  have hlow21 := toNat_low (p 2 1)
  have hlow12 := toNat_low (p 1 2)
  have hlow03 := toNat_low (p 0 3)
  generalize (p 3 0).toNat % 2 ^ 32 = l30 at *
  generalize (p 2 1).toNat % 2 ^ 32 = l21 at *
  generalize (p 1 2).toNat % 2 ^ 32 = l12 at *
  generalize (p 0 3).toNat % 2 ^ 32 = l03 at *
  have hfourth : (mergeProducts p).fourth32.toNat = l33 := hlow33
  have hthird : (mergeProducts p).third32.toNat = l32 + h33 + l23 + l33 / 2 ^ 32 := by
    have hcar := (toNat_high _).trans (congrArg (· / 2 ^ 32) hfourth)
    refine toNat_add_of_eq (toNat_add_of_eq (toNat_add_of_eq hlow32 hhigh33 ?_) hlow23 ?_) hcar ?_
    all_goals clear * - hl32 hh33 hl23 hl33; omega
  have hsnd : (mergeProducts p).second32.toNat =
      l31 + h32 + (l22 + h23) + l13 + (l32 + h33 + l23 + l33 / 2 ^ 32) / 2 ^ 32 := by
    have hcar := (toNat_high _).trans (congrArg (· / 2 ^ 32) hthird)
    refine toNat_add_of_eq (toNat_add_of_eq (toNat_add_of_eq (toNat_add_of_eq hlow31 hhigh32 ?_)
      (toNat_add_of_eq hlow22 hhigh23 ?_) ?_) hlow13 ?_) hcar ?_
    all_goals clear * - hl31 hh32 hl22 hh23 hl13 hl32 hh33 hl23 hl33; omega
  have hfst : (mergeProducts p).first32.toNat = l30 + h31 + (l21 + h22) + (l12 + h13) + l03 +
      (l31 + h32 + (l22 + h23) + l13 + (l32 + h33 + l23 + l33 / 2 ^ 32) / 2 ^ 32) / 2 ^ 32 := by
    have hcar := (toNat_high _).trans (congrArg (· / 2 ^ 32) hsnd)
    refine toNat_add_of_eq (toNat_add_of_eq (toNat_add_of_eq (toNat_add_of_eq (toNat_add_of_eq hlow30 hhigh31 ?_)
      (toNat_add_of_eq hlow21 hhigh22 ?_) ?_) (toNat_add_of_eq hlow12 hhigh13 ?_) ?_) hlow03 ?_) hcar ?_
    all_goals
      clear * - hl30 hh31 hl21 hh22 hl12 hh13 hl03 hl31 hh32 hl22 hh23 hl13 hl32 hh33 hl23 hl33
      omega
  rw [Digits.value, hfst, hsnd, hthird, hfourth, heq33, heq32, heq31, heq23, heq22, heq13]
  clear * - hl30 hh31 hl21 hh22 hl12 hh13 hl03 hl31 hh32 hl22 hh23 hl13 hl32 hh33 hl23 hl33
  have hno : l33 / 2 ^ 32 = 0 := div_eq_of_lt hl33
  generalize hthird : l32 + h33 + l23 = third
  constructor <;> omega

/-! ## Products of magnitudes -/

/-- A value is its four limbs. -/
theorem limbs_spec (x : HugeInt) : (∀ i, (x.limbs i).toNat < 2 ^ 32) ∧
    x.toNat = (x.limbs 0).toNat * 2 ^ 96 + (x.limbs 1).toNat * 2 ^ 64 + (x.limbs 2).toNat * 2 ^ 32 +
      (x.limbs 3).toNat := by
  obtain ⟨l, h, hl, hh, hup, hlow, hhigh⟩ := halves_spec x.upper
  obtain ⟨l', h', hl', hh', hlower, hlow', hhigh'⟩ := halves_spec x.lower
  refine ⟨fun i => ?_, ?_⟩
  · match i with
    | 0 => exact hhigh.trans_lt hh
    | 1 => exact hlow.trans_lt hl
    | 2 => exact hhigh'.trans_lt hh'
    | 3 => exact hlow'.trans_lt hl'
  · rw [toNat, hup, hlower]
    change _ = (x.upper >>> 32).toNat * 2 ^ 96 + (x.upper &&& 0xffffffff).toNat * 2 ^ 64 +
      (x.lower >>> 32).toNat * 2 ^ 32 + (x.lower &&& 0xffffffff).toNat
    rw [hhigh, hlow, hhigh', hlow']
    ring

variable (lhs rhs : HugeInt)

theorem toNat_products (x y : Fin 4) : (products lhs rhs x y).toNat = (lhs.limbs x).toNat * (rhs.limbs y).toNat := by
  refine mod_eq_of_lt ?_
  calc (lhs.limbs x).toNat * (rhs.limbs y).toNat < 2 ^ 32 * 2 ^ 32 :=
        Nat.mul_lt_mul'' ((limbs_spec lhs).1 x) ((limbs_spec rhs).1 y)

/-- The product of the values is that of all limbs. -/
theorem toNat_mul_toNat : lhs.toNat * rhs.toNat = (products lhs rhs 0 0).toNat * 2 ^ 192 +
      ((products lhs rhs 0 1).toNat + (products lhs rhs 1 0).toNat) * 2 ^ 160 +
      ((products lhs rhs 0 2).toNat + (products lhs rhs 1 1).toNat + (products lhs rhs 2 0).toNat) * 2 ^ 128 +
      ((products lhs rhs 3 0).toNat + (products lhs rhs 2 1).toNat + (products lhs rhs 1 2).toNat +
        (products lhs rhs 0 3).toNat) * 2 ^ 96 +
      ((products lhs rhs 3 1).toNat + (products lhs rhs 2 2).toNat + (products lhs rhs 1 3).toNat) * 2 ^ 64 +
      ((products lhs rhs 3 2).toNat + (products lhs rhs 2 3).toNat) * 2 ^ 32 + (products lhs rhs 3 3).toNat := by
  simp only [toNat_products]
  rw [(limbs_spec lhs).2, (limbs_spec rhs).2]
  ring

/-- The digits are those of the product modulo `2 ^ 128`. -/
theorem toNat_combine_products :
    (mergeProducts (products lhs rhs)).combine.toNat = lhs.toNat * rhs.toNat % 2 ^ 128 := by
  rw [Digits.toNat_combine, (mergeProducts_spec _).2, toNat_mul_toNat]
  omega

/-- A mask of adjacent bits is tested. -/
theorem and_mask_eq_zero_iff (n k m : ℕ) : n &&& (2 ^ m - 1) <<< k = 0 ↔ n / 2 ^ k % 2 ^ m = 0 := by
  have hhigh : (n &&& (2 ^ m - 1) <<< k) / 2 ^ k = n / 2 ^ k % 2 ^ m := by
    rw [← shiftRight_eq_div_pow, shiftRight_and_distrib, shiftLeft_shiftRight,
      and_two_pow_sub_one_eq_mod, shiftRight_eq_div_pow]
  have hlow : (n &&& (2 ^ m - 1) <<< k) % 2 ^ k = 0 := by
    rw [and_mod_two_pow, shiftLeft_eq, mul_mod_left, and_zero]
  rw [← hhigh]
  refine ⟨fun h => by rw [h, Nat.zero_div], fun h => ?_⟩
  rw [← div_add_mod (n &&& (2 ^ m - 1) <<< k) (2 ^ k), h, hlow, Nat.mul_zero]

theorem word_and_mask_ne_zero_iff {word mask : BitVec 64} (k m : ℕ) (hmask : mask.toNat = (2 ^ m - 1) <<< k) :
    word &&& mask ≠ 0 ↔ word.toNat / 2 ^ k % 2 ^ m ≠ 0 := by
  rw [Ne, Ne, ← and_mask_eq_zero_iff, ← hmask, ← BitVec.toNat_and]
  exact not_congr BitVec.toNat_inj.symm

theorem and_high_ne_zero_iff (word : BitVec 64) : word &&& 0xffffffff80000000 ≠ 0 ↔ 2 ^ 31 ≤ word.toNat := by
  have hmask : (0xffffffff80000000 : BitVec 64).toNat = (2 ^ 33 - 1) <<< 31 := rfl
  rw [word_and_mask_ne_zero_iff 31 33 hmask]
  omega

/-- The bits of a first digit from 31 on. -/
theorem and_carry_ne_zero_iff {word : BitVec 64} (h : word.toNat < 2 ^ 36) :
    word &&& 0xffffff80000000 ≠ 0 ↔ 2 ^ 31 ≤ word.toNat := by
  have hmask : (0xffffff80000000 : BitVec 64).toNat = (2 ^ 25 - 1) <<< 31 := rfl
  rw [word_and_mask_ne_zero_iff 31 25 hmask]
  omega

theorem and_top_ne_zero_iff (word : BitVec 64) : word &&& 0x8000000000000000 ≠ 0 ↔ 2 ^ 63 ≤ word.toNat := by
  have hmask : (0x8000000000000000 : BitVec 64).toNat = (2 ^ 1 - 1) <<< 63 := rfl
  rw [word_and_mask_ne_zero_iff 63 1 hmask]
  omega

/-- A product of magnitudes refuses those of 127 bits and more. -/
def MultipliesMagnitudes (magnitudes : HugeInt → HugeInt → Option HugeInt) : Prop :=
  ∀ lhs rhs, (magnitudes lhs rhs).map toNat =
    if lhs.toNat * rhs.toNat < 2 ^ 127 then some (lhs.toNat * rhs.toNat) else none

theorem ne_zero_iff (word : BitVec 64) : word ≠ 0 ↔ word.toNat ≠ 0 := not_congr BitVec.toNat_inj.symm

theorem multiplyLimbs_spec : MultipliesMagnitudes multiplyLimbs := by
  intro lhs rhs
  have heq := toNat_mul_toNat lhs rhs
  have hcomb := toNat_combine_products lhs rhs
  obtain ⟨hfst, hval⟩ := mergeProducts_spec (products lhs rhs)
  rw [Digits.value] at hval
  rw [multiplyLimbs]
  simp only [ne_zero_iff (products lhs rhs _ _), and_high_ne_zero_iff, and_carry_ne_zero_iff hfst]
  generalize (mergeProducts (products lhs rhs)).first32.toNat = first at *
  generalize (mergeProducts (products lhs rhs)).second32.toNat = second at *
  generalize (mergeProducts (products lhs rhs)).third32.toNat = third at *
  generalize (mergeProducts (products lhs rhs)).fourth32.toNat = fourth at *
  generalize lhs.toNat * rhs.toNat = exact at *
  generalize (products lhs rhs 0 0).toNat = p00 at *
  generalize (products lhs rhs 0 1).toNat = p01 at *
  generalize (products lhs rhs 0 2).toNat = p02 at *
  generalize (products lhs rhs 0 3).toNat = p03 at *
  generalize (products lhs rhs 1 0).toNat = p10 at *
  generalize (products lhs rhs 1 1).toNat = p11 at *
  generalize (products lhs rhs 1 2).toNat = p12 at *
  generalize (products lhs rhs 2 0).toNat = p20 at *
  generalize (products lhs rhs 2 1).toNat = p21 at *
  generalize (products lhs rhs 3 0).toNat = p30 at *
  generalize (products lhs rhs 3 1).toNat + (products lhs rhs 2 2).toNat + (products lhs rhs 1 3).toNat = c2 at *
  generalize (products lhs rhs 3 2).toNat + (products lhs rhs 2 3).toNat = c1 at *
  generalize (products lhs rhs 3 3).toNat = c0 at *
  obtain ⟨low, hlow⟩ : ∃ low, low = c2 * 2 ^ 64 + c1 * 2 ^ 32 + c0 := ⟨_, rfl⟩
  have hex : exact = (p00 * 2 ^ 64 + (p01 + p10) * 2 ^ 32 + (p02 + p11 + p20)) * 2 ^ 128 +
      (p30 + p21 + p12 + p03) * 2 ^ 96 + low := by
    rw [heq, hlow]
    ring
  by_cases hhigh : p00 ≠ 0 ∨ p01 ≠ 0 ∨ p02 ≠ 0 ∨ p10 ≠ 0 ∨ p20 ≠ 0 ∨ p11 ≠ 0
  · have hpos : 1 ≤ p00 * 2 ^ 64 + (p01 + p10) * 2 ^ 32 + (p02 + p11 + p20) := by clear * - hhigh; omega
    have hlrg : ¬exact < 2 ^ 127 := by
      rw [hex]
      omega
    rw [if_pos hhigh, if_neg hlrg, map_none]
  · have hz : p00 * 2 ^ 64 + (p01 + p10) * 2 ^ 32 + (p02 + p11 + p20) = 0 := by clear * - hhigh; omega
    rw [hz, Nat.zero_mul, Nat.zero_add] at hex
    rw [if_neg hhigh]
    by_cases hmid : 2 ^ 31 ≤ p03 ∨ 2 ^ 31 ≤ p12 ∨ 2 ^ 31 ≤ p21 ∨ 2 ^ 31 ≤ p30
    · have hlrg : ¬exact < 2 ^ 127 := by
        rw [hex]
        clear * - hmid
        omega
      rw [if_pos hmid, if_neg hlrg, map_none]
    · -- nothing is past the first digit
      have hdig : exact = first * 2 ^ 96 + second % 2 ^ 32 * 2 ^ 64 + third % 2 ^ 32 * 2 ^ 32 + fourth % 2 ^ 32 := by
        rw [hval, hex, hlow]
        clear * - hmid
        omega
      rw [if_neg hmid]
      clear * - hdig hcomb
      by_cases htop : 2 ^ 31 ≤ first
      · rw [if_pos htop, if_neg (by omega), map_none]
      · rw [if_neg htop, if_pos (by omega), map_some, hcomb, mod_eq_of_lt (by omega)]

/-- What is above the upper word is shifted out. -/
theorem toNat_toUInt128 (x : HugeInt) : x.toUInt128.toNat = x.toNat := by
  rw [toUInt128, toNat, BitVec.toNat_add, BitVec.toNat_setWidth, BitVec.toNat_shiftLeft,
    BitVec.toNat_signExtend, BitVec.toNat_setWidth, shiftLeft_eq]
  split_ifs <;> omega

theorem toNat_ofUInt128 (value : BitVec 128) : (ofUInt128 value).toNat = value.toNat := by
  have hlow : (value &&& 0xffffffffffffffff).toNat = value.toNat % 2 ^ 64 := by
    exact and_two_pow_sub_one_eq_mod value.toNat 64
  rw [ofUInt128, toNat, BitVec.toNat_setWidth, BitVec.toNat_setWidth, hlow, BitVec.toNat_ushiftRight,
    shiftRight_eq_div_pow]
  omega

theorem toNat_mulUInt128 : (ofUInt128 (lhs.toUInt128 * rhs.toUInt128)).toNat = lhs.toNat * rhs.toNat % 2 ^ 128 := by
  rw [toNat_ofUInt128, BitVec.toNat_mul, toNat_toUInt128, toNat_toUInt128]

theorem multiplyInt128_spec : MultipliesMagnitudes multiplyInt128 := by
  intro lhs rhs
  have hres := toNat_mulUInt128 lhs rhs
  rw [multiplyInt128, BitVec.umulOverflow, toNat_toUInt128, toNat_toUInt128]
  simp only [and_top_ne_zero_iff, decide_eq_true_eq]
  generalize ofUInt128 (lhs.toUInt128 * rhs.toUInt128) = result at *
  generalize lhs.toNat * rhs.toNat = exact at *
  by_cases hovf : 2 ^ 128 ≤ exact
  · rw [if_pos hovf, if_neg (by omega), map_none]
  · rw [mod_eq_of_lt (by omega)] at hres
    have htop : 2 ^ 63 ≤ result.upper.toNat ↔ ¬exact < 2 ^ 127 := by
      rw [← hres, toNat]
      omega
    rw [if_neg hovf]
    by_cases hlt : exact < 2 ^ 127
    · rw [if_neg (fun h => htop.1 h hlt), if_pos hlt, map_some, hres]
    · rw [if_pos (htop.2 hlt), if_neg hlt, map_none]

/-! ## Signs -/

theorem magnitude_spec {x : HugeInt} (h : x ≠ minimum) :
    ∃ a : HugeInt, (if x.upper.slt 0 then x.tryNegate else some x) = some a ∧ (a.toNat : ℤ) = |x.toInt| := by
  by_cases hneg : x.upper.slt 0 = true
  · have heq := toInt_negateInPlace h
    have hlt := lt_zero_iff.1 hneg
    refine ⟨x.negateInPlace, ?_, ?_⟩
    · rw [if_pos hneg, tryNegate_eq, if_neg h]
    · rw [abs_of_neg hlt, ← heq, toInt_eq_toNat (toNat_lt_of_nonneg (by omega))]
  · have hnn : 0 ≤ x.toInt := not_lt.1 fun hlt => hneg (lt_zero_iff.2 hlt)
    refine ⟨x, if_neg hneg, ?_⟩
    rw [abs_of_nonneg hnn, toInt_eq_toNat (toNat_lt_of_nonneg hnn)]

/-- The sign of a product is put back. -/
theorem sign_mul (x y : HugeInt) :
    (if (x.upper.slt 0 ^^ y.upper.slt 0) = true then -(|x.toInt| * |y.toInt|) else |x.toInt| * |y.toInt|) =
      x.toInt * y.toInt := by
  rw [abs_toInt, abs_toInt]
  cases x.upper.slt 0 <;> cases y.upper.slt 0 <;> simp

/-- The product is one that the magnitudes can be multiplied to: `-2 ^ 127` is not, unless it is a factor. -/
def HasMagnitude (lhs rhs : HugeInt) : Prop := ¬(lhs.toInt * rhs.toInt = -2 ^ 127 ∧ lhs ≠ minimum ∧ rhs ≠ minimum)

instance (lhs rhs : HugeInt) : Decidable (HasMagnitude lhs rhs) := inferInstanceAs (Decidable (¬_))

/-- The products of the minimum are those by zero and by one. -/
theorem inRange_minimum_mul_iff (x : HugeInt) : InRange (minimum.toInt * x.toInt) ↔ x = 0 ∨ x = 1 := by
  rw [← toInt_inj, ← toInt_inj, toInt_zero, toInt_one, toInt_minimum, InRange]
  omega

variable {magnitudes : HugeInt → HugeInt → Option HugeInt}

/-- Other than of the minimum, the products are those of less than 127 bits. -/
theorem toInt_tryMultiplyWith_of_ne (h : MultipliesMagnitudes magnitudes) {lhs rhs : HugeInt} (hl : lhs ≠ minimum)
    (hr : rhs ≠ minimum) : (tryMultiplyWith magnitudes lhs rhs).map toInt =
      if |lhs.toInt * rhs.toInt| < 2 ^ 127 then some (lhs.toInt * rhs.toInt) else none := by
  obtain ⟨a, ha, haeq⟩ := magnitude_spec hl
  obtain ⟨b, hb, hbeq⟩ := magnitude_spec hr
  have hab : ((a.toNat * b.toNat : ℕ) : ℤ) = |lhs.toInt * rhs.toInt| := by
    rw [abs_mul, ← haeq, ← hbeq, cast_mul]
  have hlt : a.toNat * b.toNat < 2 ^ 127 ↔ |lhs.toInt * rhs.toInt| < 2 ^ 127 := by
    rw [← hab]
    norm_cast
  have hprod := h a b
  rw [tryMultiplyWith, if_neg (not_or.2 ⟨hl, hr⟩)]
  dsimp only
  rw [ha, bind_some, hb, bind_some]
  by_cases hsm : a.toNat * b.toNat < 2 ^ 127
  · rw [if_pos hsm, map_eq_some_iff] at hprod
    obtain ⟨result, hres, heq⟩ := hprod
    have hint : result.toInt = |lhs.toInt| * |rhs.toInt| := by
      rw [toInt_eq_toNat (heq ▸ hsm), heq, cast_mul, haeq, hbeq]
    have hne : result ≠ minimum := by
      intro hmin
      rw [hmin, toInt_minimum, ← abs_mul] at hint
      omega
    rw [hres, if_pos (hlt.1 hsm), map_some, map_some, apply_ite toInt, toInt_negateInPlace hne, hint, sign_mul]
  · rw [if_neg hsm, map_eq_none_iff] at hprod
    rw [hprod, if_neg (mt hlt.2 hsm)]
    rfl

theorem toInt_tryMultiplyWith_minimum {lhs rhs : HugeInt} (h : lhs = minimum ∨ rhs = minimum) :
    (tryMultiplyWith magnitudes lhs rhs).map toInt =
      if InRange (lhs.toInt * rhs.toInt) then some (lhs.toInt * rhs.toInt) else none := by
  have hminimum : minimum ≠ 0 ∧ minimum ≠ 1 := by decide
  rw [tryMultiplyWith, if_pos h]
  by_cases hz : lhs = 0 ∨ rhs = 0
  · have hprod : lhs.toInt * rhs.toInt = 0 := by
      rcases hz with rfl | rfl
      · rw [toInt_zero, zero_mul]
      · rw [toInt_zero, mul_zero]
    rw [if_pos hz, hprod]
    rfl
  · rw [if_neg hz]
    by_cases hone : lhs = 1 ∨ rhs = 1
    · have hprod : lhs.toInt * rhs.toInt = minimum.toInt := by
        rcases hone with rfl | rfl
        · rw [h.resolve_left hminimum.2.symm, toInt_one, one_mul]
        · rw [h.resolve_right hminimum.2.symm, toInt_one, mul_one]
      rw [if_pos hone, hprod, if_pos minimum.inRange_toInt, map_some]
    · have hrng : ¬InRange (lhs.toInt * rhs.toInt) := by
        rcases h with rfl | rfl
        · rw [inRange_minimum_mul_iff]
          exact not_or.2 ⟨(not_or.1 hz).2, (not_or.1 hone).2⟩
        · rw [mul_comm, inRange_minimum_mul_iff]
          exact not_or.2 ⟨(not_or.1 hz).1, (not_or.1 hone).1⟩
      rw [if_neg hone, if_neg hrng, map_none]

/-- A checked product is exact, and refused otherwise. -/
theorem toInt_tryMultiplyWith (h : MultipliesMagnitudes magnitudes) (lhs rhs : HugeInt) :
    (tryMultiplyWith magnitudes lhs rhs).map toInt =
      if InRange (lhs.toInt * rhs.toInt) ∧ HasMagnitude lhs rhs then some (lhs.toInt * rhs.toInt) else none := by
  by_cases hmin : lhs = minimum ∨ rhs = minimum
  · have hmagnitude : HasMagnitude lhs rhs := fun ⟨_, hl, hr⟩ => hmin.elim hl hr
    rw [toInt_tryMultiplyWith_minimum hmin]
    exact if_congr (and_iff_left hmagnitude).symm rfl rfl
  · obtain ⟨hl, hr⟩ := not_or.1 hmin
    rw [toInt_tryMultiplyWith_of_ne h hl hr]
    refine if_congr ?_ rfl rfl
    rw [HasMagnitude, and_iff_left hr, and_iff_left hl, InRange, abs_lt]
    omega

/-- The paths of the compilers do not differ. -/
theorem tryMultiplyPortable_eq : tryMultiplyPortable lhs rhs = tryMultiply lhs rhs := by
  refine map_injective (fun x y h => toInt_inj.1 h) ?_
  rw [tryMultiplyPortable, tryMultiply, toInt_tryMultiplyWith multiplyLimbs_spec,
    toInt_tryMultiplyWith multiplyInt128_spec]

/-- An unchecked product is one modulo `2 ^ 128`: the minimum is its own negation. -/
theorem modEq_multiplyWith {magnitudes : HugeInt → HugeInt → HugeInt}
    (h : ∀ lhs rhs, (magnitudes lhs rhs).toNat = lhs.toNat * rhs.toNat % 2 ^ 128) (lhs rhs : HugeInt) :
    (multiplyWith magnitudes lhs rhs).toInt ≡ lhs.toInt * rhs.toInt [ZMOD 2 ^ 128] := by
  have hmags (x y : HugeInt) : (magnitudes x y).toInt ≡ x.toInt * y.toInt [ZMOD 2 ^ 128] := by
    calc (magnitudes x y).toInt ≡ (magnitudes x y).toNat [ZMOD 2 ^ 128] := modEq_toNat _
      _ = ((x.toNat * y.toNat % 2 ^ 128 : ℕ) : ℤ) := congrArg Nat.cast (h x y)
      _ ≡ ((x.toNat * y.toNat : ℕ) : ℤ) [ZMOD 2 ^ 128] := by
        push_cast
        exact Int.mod_modEq _ _
      _ ≡ x.toInt * y.toInt [ZMOD 2 ^ 128] := ((modEq_toNat x).mul (modEq_toNat y)).symm
  have hl := modEq_negate lhs
  have hr := modEq_negate rhs
  rw [multiplyWith]
  cases lhs.upper.slt 0 <;> cases rhs.upper.slt 0
  · exact hmags lhs rhs
  · refine (modEq_negate _).trans ?_
    have := ((hmags lhs rhs.negateInPlace).trans (hr.mul_left _)).neg
    rwa [mul_neg, neg_neg] at this
  · refine (modEq_negate _).trans ?_
    have := ((hmags lhs.negateInPlace rhs).trans (hl.mul_right _)).neg
    rwa [neg_mul, neg_neg] at this
  · have := (hmags lhs.negateInPlace rhs.negateInPlace).trans (hl.mul hr)
    rwa [neg_mul_neg] at this

theorem modEq_multiply (lhs rhs : HugeInt) : (multiply lhs rhs).toInt ≡ lhs.toInt * rhs.toInt [ZMOD 2 ^ 128] :=
  modEq_multiplyWith toNat_mulUInt128 lhs rhs

theorem toInt_mul {x y : HugeInt} (h : InRange (x.toInt * y.toInt)) : (x * y).toInt = x.toInt * y.toInt :=
  toInt_eq_of_modEq (modEq_multiply x y) h

/-! ## Arithmetic -/

/-- The arithmetic of two values is exact: the results are refused if and only if they are out of range. -/
structure Exact (lhs rhs : HugeInt) : Prop where
  tryAddInPlace : InPlace lhs (lhs.toInt + rhs.toInt) (tryAddInPlace lhs rhs)
  trySubtractInPlace : InPlace lhs (lhs.toInt - rhs.toInt) (trySubtractInPlace lhs rhs)
  tryMultiply : (tryMultiply lhs rhs).map toInt =
    if InRange (lhs.toInt * rhs.toInt) then some (lhs.toInt * rhs.toInt) else none
  tryMultiplyPortable : tryMultiplyPortable lhs rhs = HugeInt.tryMultiply lhs rhs
  multiply : (multiply lhs rhs).toInt ≡ lhs.toInt * rhs.toInt [ZMOD 2 ^ 128]
  multiplyPortable : (multiplyPortable lhs rhs).toInt ≡ lhs.toInt * rhs.toInt [ZMOD 2 ^ 128]

/-- Only the product `-2 ^ 127` of other factors is refused although it is in range. -/
theorem exact_iff (lhs rhs : HugeInt) : Exact lhs rhs ↔ HasMagnitude lhs rhs := by
  have hmultiply := toInt_tryMultiplyWith multiplyInt128_spec lhs rhs
  constructor
  · intro h hprod
    have hex := h.tryMultiply
    rw [tryMultiply, hmultiply, if_neg fun hand => hand.2 hprod, hprod.1] at hex
    exact absurd hex (by decide)
  · intro h
    exact {
      tryAddInPlace := tryAddInPlace_spec lhs rhs
      trySubtractInPlace := trySubtractInPlace_spec lhs rhs
      tryMultiply := hmultiply.trans (if_congr (and_iff_left h) rfl rfl)
      tryMultiplyPortable := tryMultiplyPortable_eq lhs rhs
      multiply := modEq_multiply lhs rhs
      multiplyPortable := modEq_multiplyWith toNat_combine_products lhs rhs }

/-- `-2 * 2 ^ 126` is in range, and refused. -/
theorem not_exact_minusTwo : ¬Exact (ofInt64 (-2)) ⟨2 ^ 62, 0⟩ := by
  intro h
  have hprod := h.tryMultiply
  revert hprod
  decide

end HugeInt

end WfOpt

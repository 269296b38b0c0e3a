import Mathlib

/-!
# Unsigned integers of 128 bits

`uhugeint_t` is two words of 64 bits. The operators work on the words; on the numbers (`toNat`), they
are the operations of integers modulo `2 ^ 128`. The remainder is computed by long division, bit by bit
(`Uhugeint::DivMod`), and is that of the numbers (`toNat_mod`).
-/

namespace WfOpt

open Nat

/-- `uhugeint_t` -/
structure UHugeInt where
  upper : BitVec 64
  lower : BitVec 64
  deriving DecidableEq, Repr

namespace UHugeInt

/-! ## Operators -/

/-- The conversion of a `uint64_t`. -/
def ofWord (value : BitVec 64) : UHugeInt := ⟨0, value⟩

instance : OfNat UHugeInt n := ⟨ofWord (BitVec.ofNat 64 n)⟩

/-- `operator+` -/
def add (x y : UHugeInt) : UHugeInt :=
  ⟨x.upper + y.upper + (if x.lower + y.lower < x.lower then 1 else 0), x.lower + y.lower⟩

/-- `operator-` -/
def sub (x y : UHugeInt) : UHugeInt :=
  ⟨x.upper - y.upper - (if x.lower - y.lower > x.lower then 1 else 0), x.lower - y.lower⟩

/-- `operator>>` -/
def shiftRight (x : UHugeInt) (shift : ℕ) : UHugeInt := if 128 ≤ shift then 0
  else if shift = 0 then x
  else if shift = 64 then ⟨0, x.upper⟩
  else if shift < 64 then ⟨x.upper >>> shift, (x.upper <<< (64 - shift)) + (x.lower >>> shift)⟩
  else ⟨0, x.upper >>> (shift - 64)⟩

/-- `operator<<` -/
def shiftLeft (x : UHugeInt) (shift : ℕ) : UHugeInt := if 128 ≤ shift then 0
  else if shift = 0 then x
  else if shift = 64 then ⟨x.lower, 0⟩
  else if shift < 64 then ⟨(x.upper <<< shift) + (x.lower >>> (64 - shift)), x.lower <<< shift⟩
  else ⟨x.lower <<< (shift - 64), 0⟩

/-- `operator&` -/
def and (x y : UHugeInt) : UHugeInt := ⟨x.upper &&& y.upper, x.lower &&& y.lower⟩

/-- `operator|` -/
def or (x y : UHugeInt) : UHugeInt := ⟨x.upper ||| y.upper, x.lower ||| y.lower⟩

instance : Add UHugeInt := ⟨add⟩
instance : Sub UHugeInt := ⟨sub⟩
instance : HShiftRight UHugeInt ℕ UHugeInt := ⟨shiftRight⟩
instance : HShiftLeft UHugeInt ℕ UHugeInt := ⟨shiftLeft⟩
instance : AndOp UHugeInt := ⟨and⟩
instance : OrOp UHugeInt := ⟨or⟩

/-- `Uhugeint::LessThan` -/
def lessThan (x y : UHugeInt) : Bool := x.upper < y.upper || (x.upper = y.upper && x.lower < y.lower)

/-- `Uhugeint::GreaterThanEquals` -/
def greaterThanEquals (x y : UHugeInt) : Bool := x.upper > y.upper || (x.upper = y.upper && x.lower ≥ y.lower)

/-- The number of bits of a word, of which `n` are left. -/
def wordBits : (n : ℕ) → BitVec 64 → ℕ
  | 0, _ => 0
  | n + 1, word => if word = 0 then 0 else wordBits n (word >>> 1) + 1

/-- `Bits` -/
def bits (x : UHugeInt) : ℕ := if x.upper ≠ 0 then 64 + wordBits 64 x.upper else wordBits 64 x.lower

/-- The loop of `Uhugeint::DivMod`: the quotient and the remainder, from a bit on. -/
def divModLoop (lhs rhs : UHugeInt) : ℕ → UHugeInt × UHugeInt → UHugeInt × UHugeInt
  | 0, s => s
  | idx + 1, (result, remainder) =>
    let remainder := if (lhs >>> idx) &&& 1 ≠ 0 then (remainder <<< 1) + 1 else remainder <<< 1
    if remainder.greaterThanEquals rhs then
      divModLoop lhs rhs idx ((result <<< 1) + 1, remainder - rhs)
    else divModLoop lhs rhs idx (result <<< 1, remainder)

/-- `Uhugeint::DivMod` -/
def divMod (lhs rhs : UHugeInt) : UHugeInt × UHugeInt := if rhs = 0 then (0, lhs)
  else if rhs = 1 then (lhs, 0)
  else if lhs = rhs then (1, 0)
  else if lhs = 0 || lhs.lessThan rhs then (0, lhs)
  else divModLoop lhs rhs lhs.bits (0, 0)

/-- `operator%` -/
instance : Mod UHugeInt := ⟨fun lhs rhs => (divMod lhs rhs).2⟩

/-- The conversion to a `uint32_t`. -/
def toUInt32 (x : UHugeInt) : BitVec 32 := x.lower.setWidth 32

/-- The conversion of a `uint32_t`. -/
def ofUInt32 (value : BitVec 32) : UHugeInt := ofWord (value.setWidth 64)

/-! ## Numbers -/

/-- The number of both words. -/
def toNat (x : UHugeInt) : ℕ := x.upper.toNat * 2 ^ 64 + x.lower.toNat

variable {x y : UHugeInt}

theorem toNat_lt (x : UHugeInt) : x.toNat < 2 ^ 128 := by
  rw [toNat]
  omega

theorem toNat_inj : x.toNat = y.toNat ↔ x = y := by
  refine ⟨fun h => ?_, congrArg toNat⟩
  obtain ⟨xu, xl⟩ := x
  obtain ⟨yu, yl⟩ := y
  rw [toNat, toNat] at h
  dsimp only at h
  have hup : xu.toNat = yu.toNat := by omega
  have hlow : xl.toNat = yl.toNat := by omega
  rw [BitVec.eq_of_toNat_eq hup, BitVec.eq_of_toNat_eq hlow]

@[simp] theorem toNat_ofWord (value : BitVec 64) : (ofWord value).toNat = value.toNat := by
  exact (congrArg (· + value.toNat) (Nat.zero_mul _)).trans (Nat.zero_add _)

@[simp] theorem toNat_zero : (0 : UHugeInt).toNat = 0 := rfl

@[simp] theorem toNat_one : (1 : UHugeInt).toNat = 1 := rfl

@[simp] theorem toNat_ofUInt32 (value : BitVec 32) : (ofUInt32 value).toNat = value.toNat := by
  rw [ofUInt32, toNat_ofWord, BitVec.toNat_setWidth_of_le (by decide)]

/-- The lower half of the lower word. -/
@[simp] theorem toNat_toUInt32 (x : UHugeInt) : x.toUInt32.toNat = x.toNat % 2 ^ 32 := by
  rw [toUInt32, BitVec.toNat_setWidth, toNat]
  omega

/-- The words are carried over by a sum. -/
theorem toNat_add (x y : UHugeInt) : (x + y).toNat = (x.toNat + y.toNat) % 2 ^ 128 := by
  change (add x y).toNat = _
  have hcar : x.lower + y.lower < x.lower ↔ 2 ^ 64 ≤ x.lower.toNat + y.lower.toNat := by
    rw [BitVec.lt_def, BitVec.toNat_add]
    omega
  rw [add, toNat, toNat, toNat]
  simp only [hcar]
  have hz : (0 : BitVec 64).toNat = 0 := rfl
  have hone : (1 : BitVec 64).toNat = 1 := rfl
  split_ifs with h <;> simp only [BitVec.toNat_add] <;> omega

theorem toNat_sub (h : y.toNat ≤ x.toNat) : (x - y).toNat = x.toNat - y.toNat := by
  change (sub x y).toNat = _
  have hborrow : x.lower - y.lower > x.lower ↔ x.lower.toNat < y.lower.toNat := by
    rw [gt_iff_lt, BitVec.lt_def, BitVec.toNat_sub]
    omega
  rw [toNat, toNat] at h
  rw [sub, toNat, toNat, toNat]
  simp only [hborrow]
  have hz : (0 : BitVec 64).toNat = 0 := rfl
  have hone : (1 : BitVec 64).toNat = 1 := rfl
  split_ifs with hlt <;> simp only [BitVec.toNat_sub] <;> omega

theorem lessThan_iff : x.lessThan y = true ↔ x.toNat < y.toNat := by
  rw [lessThan, toNat, toNat]
  simp only [Bool.or_eq_true, Bool.and_eq_true, decide_eq_true_eq, BitVec.lt_def, ← BitVec.toNat_inj]
  omega

theorem greaterThanEquals_iff : x.greaterThanEquals y = true ↔ y.toNat ≤ x.toNat := by
  rw [greaterThanEquals, toNat, toNat]
  simp only [Bool.or_eq_true, Bool.and_eq_true, decide_eq_true_eq, gt_iff_lt, ge_iff_le, BitVec.lt_def,
    BitVec.le_def, ← BitVec.toNat_inj]
  omega

/-- Bits of the upper word are those from 64 on. -/
theorem testBit_toNat (x : UHugeInt) (i : ℕ) :
    x.toNat.testBit i = if i < 64 then x.lower.toNat.testBit i else x.upper.toNat.testBit (i - 64) := by
  rw [toNat, Nat.mul_comm]
  exact testBit_two_pow_mul_add _ x.lower.isLt i

theorem toNat_and (x y : UHugeInt) : (x &&& y).toNat = x.toNat &&& y.toNat := by
  refine eq_of_testBit_eq fun i => ?_
  rw [testBit_and, testBit_toNat, testBit_toNat, testBit_toNat]
  change (if i < 64 then (x.lower &&& y.lower).toNat.testBit i
    else (x.upper &&& y.upper).toNat.testBit (i - 64)) = _
  rw [BitVec.toNat_and, BitVec.toNat_and, testBit_and, testBit_and]
  split_ifs <;> rfl

theorem toNat_or (x y : UHugeInt) : (x ||| y).toNat = x.toNat ||| y.toNat := by
  refine eq_of_testBit_eq fun i => ?_
  rw [testBit_or, testBit_toNat, testBit_toNat, testBit_toNat]
  change (if i < 64 then (x.lower ||| y.lower).toNat.testBit i
    else (x.upper ||| y.upper).toNat.testBit (i - 64)) = _
  rw [BitVec.toNat_or, BitVec.toNat_or, testBit_or, testBit_or]
  split_ifs <;> rfl

/-! ## Shifts -/

/-- What is shifted out of the upper word is shifted into the lower one. -/
theorem shiftRight_words {u l a b : ℕ} (hab : a * b = 2 ^ 64) (hl : l < 2 ^ 64) :
    u / a * 2 ^ 64 + (u * b % 2 ^ 64 + l / a) % 2 ^ 64 = (u * 2 ^ 64 + l) / a := by
  have ha : 0 < a := Nat.pos_of_ne_zero fun h => by rw [h, Nat.zero_mul] at hab; omega
  have hspl : u * b = u / a * 2 ^ 64 + u % a * b := by
    calc u * b = (a * (u / a) + u % a) * b := by rw [div_add_mod]
      _ = u / a * (a * b) + u % a * b := by ring
      _ = u / a * 2 ^ 64 + u % a * b := by rw [hab]
  have hlt : u % a * b + l / a < 2 ^ 64 := by
    calc u % a * b + l / a < u % a * b + b := Nat.add_lt_add_left (Nat.div_lt_of_lt_mul (hab ▸ hl)) _
      _ = (u % a + 1) * b := (succ_mul _ _).symm
      _ ≤ a * b := Nat.mul_le_mul_right b (mod_lt u ha)
      _ = 2 ^ 64 := hab
  have hdiv : (u * 2 ^ 64 + l) / a = u * b + l / a := by
    rw [← hab, show u * (a * b) + l = a * (u * b) + l by ring, mul_add_div ha]
  rw [hdiv, hspl]
  generalize l / a = t at hlt
  omega

/-- What is shifted out of the lower word is shifted into the upper one. -/
theorem shiftLeft_words {u l a b : ℕ} (hab : b * a = 2 ^ 64) :
    (u * a % 2 ^ 64 + l / b) % 2 ^ 64 * 2 ^ 64 + l * a % 2 ^ 64 = (u * 2 ^ 64 + l) * a % 2 ^ 128 := by
  have hb : 0 < b := Nat.pos_of_ne_zero fun h => by rw [h, Nat.zero_mul] at hab; omega
  have ha : 0 < a := Nat.pos_of_ne_zero fun h => by rw [h, Nat.mul_zero] at hab; omega
  have hspl : l * a = l / b * 2 ^ 64 + l % b * a := by
    calc l * a = (b * (l / b) + l % b) * a := by rw [div_add_mod]
      _ = l / b * (b * a) + l % b * a := by ring
      _ = l / b * 2 ^ 64 + l % b * a := by rw [hab]
  have hlt : l % b * a < 2 ^ 64 := hab ▸ Nat.mul_lt_mul_of_pos_right (mod_lt l hb) ha
  rw [Nat.add_mul, hspl, Nat.mul_right_comm u]
  omega

theorem two_pow_mul_two_pow {s : ℕ} (h : s < 64) : 2 ^ s * 2 ^ (64 - s) = 2 ^ 64 := by
  rw [← pow_add, Nat.add_sub_cancel' h.le]

theorem toNat_shiftRight (x : UHugeInt) (s : ℕ) : (x >>> s).toNat = x.toNat >>> s := by
  change (shiftRight x s).toNat = _
  have hlow := x.lower.isLt
  rw [shiftRight, shiftRight_eq_div_pow]
  split_ifs with h128 hz h64 hlt
  · exact (div_eq_of_lt (x.toNat_lt.trans_le (Nat.pow_le_pow_right Nat.two_pos h128))).symm
  · rw [hz, pow_zero, Nat.div_one]
  · rw [h64, toNat, toNat]
    change 0 * 2 ^ 64 + x.upper.toNat = _
    omega
  · rw [toNat, toNat, ← shiftRight_words (two_pow_mul_two_pow hlt) hlow]
    simp only [BitVec.toNat_add, BitVec.toNat_ushiftRight, BitVec.toNat_shiftLeft,
      shiftRight_eq_div_pow, shiftLeft_eq]
  · have hpow : 2 ^ s = 2 ^ 64 * 2 ^ (s - 64) := by
      rw [← pow_add, Nat.add_sub_cancel' (not_lt.1 hlt)]
    have hword : (x.upper.toNat * 2 ^ 64 + x.lower.toNat) / 2 ^ 64 = x.upper.toNat := by omega
    rw [toNat, toNat, hpow, ← Nat.div_div_eq_div_mul, hword]
    change 0 * 2 ^ 64 + (x.upper >>> (s - 64)).toNat = _
    rw [BitVec.toNat_ushiftRight, shiftRight_eq_div_pow, Nat.zero_mul, Nat.zero_add]

theorem toNat_shiftLeft (x : UHugeInt) (s : ℕ) : (x <<< s).toNat = x.toNat <<< s % 2 ^ 128 := by
  change (shiftLeft x s).toNat = _
  rw [shiftLeft, shiftLeft_eq]
  split_ifs with h128 hz h64 hlt
  · rw [← Nat.add_sub_cancel' h128, pow_add, ← Nat.mul_assoc, Nat.mul_right_comm, mul_mod_left]
    rfl
  · rw [hz, pow_zero, Nat.mul_one, mod_eq_of_lt x.toNat_lt]
  · rw [h64, toNat, toNat]
    change x.lower.toNat * 2 ^ 64 + 0 = _
    omega
  · rw [toNat, toNat, ← shiftLeft_words (b := 2 ^ (64 - s)) (by rw [Nat.mul_comm, two_pow_mul_two_pow hlt])]
    simp only [BitVec.toNat_add, BitVec.toNat_ushiftRight, BitVec.toNat_shiftLeft,
      shiftRight_eq_div_pow, shiftLeft_eq]
  · have hpow : 2 ^ s = 2 ^ 64 * 2 ^ (s - 64) := by
      rw [← pow_add, Nat.add_sub_cancel' (not_lt.1 hlt)]
    rw [toNat, toNat, hpow]
    change (x.lower <<< (s - 64)).toNat * 2 ^ 64 + 0 = _
    rw [BitVec.toNat_shiftLeft, shiftLeft_eq]
    generalize 2 ^ (s - 64) = a
    rw [show (x.upper.toNat * 2 ^ 64 + x.lower.toNat) * (2 ^ 64 * a) =
      x.upper.toNat * a * 2 ^ 128 + x.lower.toNat * a * 2 ^ 64 by ring]
    omega

/-! ## Remainders -/

/-- The bits of a word are counted up to the highest one that is set. -/
theorem toNat_lt_wordBits (n : ℕ) : ∀ word : BitVec 64, word.toNat < 2 ^ n → word.toNat < 2 ^ wordBits n word := by
  induction n with
  | zero => exact fun word h => h
  | succ n ih =>
    intro word h
    rw [wordBits]
    by_cases hz : word = 0
    · rw [if_pos hz, hz]
      exact Nat.two_pow_pos 0
    · have hhalf : (word >>> 1).toNat = word.toNat / 2 := by
        rw [BitVec.toNat_ushiftRight, shiftRight_eq_div_pow, pow_one]
      have hlt := ih (word >>> 1) (by rw [hhalf]; omega)
      rw [if_neg hz, pow_succ]
      omega

/-- No more bits are counted than there are. -/
theorem wordBits_le (n : ℕ) : ∀ word : BitVec 64, wordBits n word ≤ n := by
  induction n with
  | zero => exact fun word => Nat.le_refl 0
  | succ n ih =>
    intro word
    rw [wordBits]
    split_ifs
    · exact Nat.zero_le _
    · exact succ_le_succ (ih _)

/-- There is no bit above those that are counted. -/
theorem toNat_lt_bits (x : UHugeInt) : x.toNat < 2 ^ x.bits := by
  have hlow := toNat_lt_wordBits 64 x.lower x.lower.isLt
  have hup := toNat_lt_wordBits 64 x.upper x.upper.isLt
  rw [bits, toNat]
  by_cases hz : x.upper = 0
  · have hword : x.upper.toNat = 0 := congrArg BitVec.toNat hz
    rw [if_neg (not_not.2 hz), hword, Nat.zero_mul, Nat.zero_add]
    exact hlow
  · rw [if_pos hz, pow_add]
    omega

/-- A bit is the remainder of a number by 2. -/
theorem and_one_ne_zero_iff (x : UHugeInt) : x &&& 1 ≠ 0 ↔ x.toNat % 2 = 1 := by
  rw [Ne, ← toNat_inj, toNat_and, toNat_one, toNat_zero, and_one_is_mod]
  omega

/-- The remainder of the higher bits is kept; each bit is appended to it. -/
theorem toNat_divModLoop {lhs rhs : UHugeInt} (hrhs : 0 < rhs.toNat) (idx : ℕ) : ∀ s : UHugeInt × UHugeInt,
    s.2.toNat = lhs.toNat / 2 ^ idx % rhs.toNat → (divModLoop lhs rhs idx s).2.toNat = lhs.toNat % rhs.toNat := by
  induction idx with
  | zero =>
    intro s hs
    rw [pow_zero, Nat.div_one] at hs
    exact hs
  | succ idx ih =>
    intro ⟨result, remainder⟩ hs
    -- the number of the bits that have been seen so far
    have hhalf : lhs.toNat / 2 ^ (idx + 1) = lhs.toNat / 2 ^ idx / 2 := by
      rw [pow_succ, Nat.div_div_eq_div_mul]
    have hbd : lhs.toNat / 2 ^ idx < 2 ^ 128 := (Nat.div_le_self _ _).trans_lt lhs.toNat_lt
    have hbit : (lhs >>> idx) &&& 1 ≠ 0 ↔ lhs.toNat / 2 ^ idx % 2 = 1 := by
      rw [and_one_ne_zero_iff, toNat_shiftRight, shiftRight_eq_div_pow]
    rw [hhalf] at hs
    generalize lhs.toNat / 2 ^ idx = q at hs hbd hbit ih
    have hle : remainder.toNat ≤ q / 2 := by
      rw [hs]
      exact mod_le _ _
    have hlt : remainder.toNat < rhs.toNat := by
      rw [hs]
      exact mod_lt _ hrhs
    have hdouble : (remainder <<< 1).toNat = remainder.toNat * 2 := by
      rw [toNat_shiftLeft, shiftLeft_eq, pow_one]
      omega
    have hnx : (if (lhs >>> idx) &&& 1 ≠ 0 then (remainder <<< 1) + 1 else remainder <<< 1).toNat =
        remainder.toNat * 2 + q % 2 := by
      by_cases hq : q % 2 = 1
      · rw [if_pos (hbit.2 hq), toNat_add, hdouble, toNat_one]
        omega
      · rw [if_neg (fun h => hq (hbit.1 h)), hdouble]
        omega
    have hmod : q % rhs.toNat = (remainder.toNat * 2 + q % 2) % rhs.toNat := by
      rw [hs, add_mod, mod_mul_mod, ← add_mod, Nat.mul_comm, div_add_mod]
    rw [divModLoop]
    generalize (if (lhs >>> idx) &&& 1 ≠ 0 then (remainder <<< 1) + 1 else remainder <<< 1) = next at hnx
    rw [← hnx] at hmod
    by_cases hge : rhs.toNat ≤ next.toNat
    · rw [if_pos (greaterThanEquals_iff.2 hge)]
      refine ih _ ?_
      rw [toNat_sub hge, hmod, mod_eq_sub_mod hge, mod_eq_of_lt (by omega)]
    · rw [if_neg fun h => hge (greaterThanEquals_iff.1 h)]
      refine ih _ ?_
      rw [hmod, mod_eq_of_lt (not_le.1 hge)]

theorem toNat_mod {lhs rhs : UHugeInt} (hrhs : 0 < rhs.toNat) : (lhs % rhs).toNat = lhs.toNat % rhs.toNat := by
  change (divMod lhs rhs).2.toNat = _
  rw [divMod]
  split_ifs with hz hone heq hless
  · rw [hz, toNat_zero] at hrhs
    exact absurd hrhs (Nat.lt_irrefl 0)
  · rw [hone, toNat_one, mod_one]
    exact toNat_zero
  · rw [heq, mod_self]
    exact toNat_zero
  · rw [Bool.or_eq_true, decide_eq_true_iff] at hless
    refine (mod_eq_of_lt ?_).symm
    rcases hless with rfl | hless
    · exact hrhs
    · exact lessThan_iff.1 hless
  · refine toNat_divModLoop hrhs _ _ ?_
    rw [div_eq_of_lt (toNat_lt_bits lhs), zero_mod]
    exact toNat_zero

end UHugeInt

end WfOpt

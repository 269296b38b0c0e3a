import WfOpt.Common.HugeIntMultiply

/-!
# Division of 128 bits

`Hugeint::DivMod` divides the magnitudes bit by bit, and puts the signs back. Remainders are compared as signed
numbers, but never too large (`divModLoop_spec`). The minimum, which has no magnitude, is divided as its successor
is, and the result corrected. All in all this is the division truncated to zero (`isDivision`).
-/

namespace WfOpt

open Nat List

namespace HugeInt

/-! ## Bits -/

/-- `PositiveHugeintHighestBit` -/
def highestBit (bits : HugeInt) : ℕ :=
  if bits.upper ≠ 0 then 64 + UHugeInt.wordBits 64 bits.upper else UHugeInt.wordBits 64 bits.lower

/-- `PositiveHugeintIsBitSet` -/
def isBitSet (lhs : HugeInt) (bitPosition : ℕ) : Bool :=
  if bitPosition < 64 then lhs.lower &&& (1 : BitVec 64) <<< bitPosition ≠ 0
  else lhs.upper &&& (1 : BitVec 64) <<< (bitPosition - 64) ≠ 0

/-- `PositiveHugeintLeftShift` -/
def leftShift (lhs : HugeInt) (amount : ℕ) : HugeInt :=
  ⟨(lhs.upper <<< amount) + (lhs.lower >>> (64 - amount)), lhs.lower <<< amount⟩

/-! ## Division -/

/-- A step of the loop of `Hugeint::DivMod`: the quotient and the remainder, with one bit more. -/
def divModStep (lhs rhs : HugeInt) (x : ℕ) (s : HugeInt × HugeInt) : HugeInt × HugeInt :=
  -- left-shift the current result and remainder by 1
  let divResult := s.1.leftShift 1
  let remainder := s.2.leftShift 1
  let remainder := if lhs.isBitSet x then remainder + 1 else remainder
  if remainder.greaterThanEquals rhs then (divResult + 1, remainder - rhs) else (divResult, remainder)

/-- The loop of `Hugeint::DivMod`, over the bits below `x`. -/
def divModLoop (lhs rhs : HugeInt) : (x : ℕ) → HugeInt × HugeInt → HugeInt × HugeInt
  | 0, s => s
  | x + 1, s => divModLoop lhs rhs x (divModStep lhs rhs x s)

/-- The negation of a number that is negative. -/
def magnitude (x : HugeInt) : HugeInt := if x.upper.slt 0 then x.negateInPlace else x

/-- `Hugeint::DivMod` of two numbers that can be negated, by one that is not zero. -/
def divModSigned (lhs rhs : HugeInt) : HugeInt × HugeInt :=
  let s := divModLoop lhs.magnitude rhs.magnitude lhs.magnitude.highestBit (0, 0)
  (if lhs.upper.slt 0 ^^ rhs.upper.slt 0 then s.1.negateInPlace else s.1,
    if lhs.upper.slt 0 then s.2.negateInPlace else s.2)

/-- `Sign` -/
def sign (n : HugeInt) : HugeInt := ofInt64 ((if n.greaterThan 0 then 1 else 0) - (if n.lessThan 0 then 1 else 0))

/-- `Abs` -/
def abs (n : HugeInt) : HugeInt := n * n.sign

/-- `DivModMinimum`: one of the sides is the minimum. -/
def divModMinimum (lhs rhs : HugeInt) : HugeInt × HugeInt :=
  if rhs = minimum then if lhs = minimum then (1, 0) else (0, lhs)
  else
    -- Add 1 to minimum and run through DivMod again
    let s := divModSigned (minimum + 1) rhs
    -- If the 1 mattered we need to adjust the result, otherwise the remainder
    if s.2.abs + 1 = rhs.abs then (s.1 - rhs.sign, 0) else (s.1, s.2 - 1)

/-- `Hugeint::DivMod`: the quotient and the remainder. -/
def divMod (lhs rhs : HugeInt) : HugeInt × HugeInt := if rhs = 0 then (0, lhs)
  else if lhs = minimum ∨ rhs = minimum then divModMinimum lhs rhs
  else divModSigned lhs rhs

/-- `Hugeint::TryDivMod` -/
def tryDivMod (lhs rhs : HugeInt) : Option (HugeInt × HugeInt) := if rhs = 0 then none
  else if lhs = minimum ∧ rhs = ofInt64 (-1) then none
  else some (divMod lhs rhs)

/-- A step of the loop of `Hugeint::DivModPositive`. -/
def divModPositiveStep (lhs : HugeInt) (rhs : BitVec 64) (x : ℕ) (s : HugeInt × BitVec 64) : HugeInt × BitVec 64 :=
  -- left-shift the current result and remainder by 1
  let divResult := s.1.leftShift 1
  let remainder := s.2 <<< 1
  let remainder := if lhs.isBitSet x then remainder + 1 else remainder
  if remainder ≥ rhs then
    let lower := divResult.lower + 1
    -- overflow
    (⟨if lower = 0 then divResult.upper + 1 else divResult.upper, lower⟩, remainder - rhs)
  else (divResult, remainder)

/-- The loop of `Hugeint::DivModPositive`, over the bits below `x`. -/
def divModPositiveLoop (lhs : HugeInt) (rhs : BitVec 64) : (x : ℕ) → HugeInt × BitVec 64 → HugeInt × BitVec 64
  | 0, s => s
  | x + 1, s => divModPositiveLoop lhs rhs x (divModPositiveStep lhs rhs x s)

/-- `Hugeint::DivModPositive`: the quotient and the remainder. -/
def divModPositive (lhs : HugeInt) (rhs : BitVec 64) : HugeInt × BitVec 64 :=
  divModPositiveLoop lhs rhs lhs.highestBit (0, 0)

/-! ## Intermediate remainders -/

/-- The remainders of the loop of `Hugeint::DivMod`: shifted, with the next bit, and reduced. -/
def loopRemainders (lhs rhs : HugeInt) : (x : ℕ) → HugeInt × HugeInt → List ℤ
  | 0, _ => []
  | x + 1, s =>
    let shifted := 2 * s.2.toInt
    let next := if lhs.isBitSet x then shifted + 1 else shifted
    shifted :: next :: (if rhs.toInt ≤ next then next - rhs.toInt else next) ::
      loopRemainders lhs rhs x (divModStep lhs rhs x s)

/-- The remainders that `Hugeint::DivMod` comes across, of two numbers that can be negated. -/
def signedRemainders (lhs rhs : HugeInt) : List ℤ :=
  let s := divModLoop lhs.magnitude rhs.magnitude lhs.magnitude.highestBit (0, 0)
  loopRemainders lhs.magnitude rhs.magnitude lhs.magnitude.highestBit (0, 0) ++
    [if lhs.upper.slt 0 then -s.2.toInt else s.2.toInt]

/-- The remainders that `DivModMinimum` comes across. -/
def minimumRemainders (lhs rhs : HugeInt) : List ℤ := if rhs = minimum then [if lhs = minimum then 0 else lhs.toInt]
  else
    let s := divModSigned (minimum + 1) rhs
    signedRemainders (minimum + 1) rhs ++
      [|s.2.toInt|, |s.2.toInt| + 1, if |s.2.toInt| + 1 = |rhs.toInt| then 0 else s.2.toInt - 1]

/-- The remainders that `Hugeint::DivMod` comes across. -/
def divModRemainders (lhs rhs : HugeInt) : List ℤ := if rhs = 0 then [lhs.toInt]
  else if lhs = minimum ∨ rhs = minimum then minimumRemainders lhs rhs
  else signedRemainders lhs rhs

/-! ## Numbers of bits -/

variable {lhs rhs : HugeInt}

theorem toNat_lt_highestBit (x : HugeInt) : x.toNat < 2 ^ x.highestBit := UHugeInt.toNat_lt_bits ⟨x.upper, x.lower⟩

theorem highestBit_le (x : HugeInt) : x.highestBit ≤ 128 := by
  have hword (word : BitVec 64) := UHugeInt.wordBits_le 64 word
  have hlow := hword x.lower
  have hup := hword x.upper
  rw [highestBit]
  split_ifs <;> omega

theorem isBitSet_iff {x : ℕ} (hx : x < 128) : lhs.isBitSet x = true ↔ lhs.toNat / 2 ^ x % 2 = 1 := by
  have hword (word : BitVec 64) {k : ℕ} (hk : k < 64) :
      word &&& (1 : BitVec 64) <<< k ≠ 0 ↔ word.toNat.testBit k = true := by
    have hmask : ((1 : BitVec 64) <<< k).toNat = (2 ^ 1 - 1) <<< k := by
      rw [BitVec.toNat_shiftLeft, shiftLeft_eq, shiftLeft_eq]
      exact mod_eq_of_lt ((Nat.one_mul _).trans_lt (Nat.pow_lt_pow_right (by decide) hk))
    rw [word_and_mask_ne_zero_iff k 1 hmask, pow_one, testBit_eq_decide_div_mod_eq, decide_eq_true_iff]
    omega
  have hbit : lhs.toNat.testBit x = if x < 64 then lhs.lower.toNat.testBit x else lhs.upper.toNat.testBit (x - 64) :=
    UHugeInt.testBit_toNat ⟨lhs.upper, lhs.lower⟩ x
  rw [testBit_eq_decide_div_mod_eq] at hbit
  rw [← decide_eq_true_iff (p := lhs.toNat / 2 ^ x % 2 = 1), hbit, isBitSet]
  by_cases hlt : x < 64
  · rw [if_pos hlt, if_pos hlt, decide_eq_true_iff, hword lhs.lower hlt]
  · rw [if_neg hlt, if_neg hlt, decide_eq_true_iff, hword lhs.upper (by omega)]

/-- A shift by one bit doubles, modulo `2 ^ 128`. -/
theorem toNat_leftShift (x : HugeInt) : (x.leftShift 1).toNat = x.toNat * 2 % 2 ^ 128 := by
  rw [leftShift, toNat, toNat, ← UHugeInt.shiftLeft_words (a := 2) (b := 2 ^ 63) (by norm_num)]
  simp only [BitVec.toNat_add, BitVec.toNat_ushiftRight, BitVec.toNat_shiftLeft, shiftRight_eq_div_pow,
    shiftLeft_eq, pow_one]

/-- A number that is small enough is doubled. -/
theorem toInt_leftShift {x : HugeInt} {n : ℕ} (h : x.toInt = n) (hn : n < 2 ^ 126) :
    (x.leftShift 1).toInt = 2 * n := by
  have hx : x.toNat < 2 ^ 127 := toNat_lt_of_nonneg (by omega)
  have heq := toInt_eq_toNat hx
  have hsh := toNat_leftShift x
  have hsm : x.toNat * 2 % 2 ^ 128 = 2 * n := by omega
  rw [hsm] at hsh
  rw [toInt_eq_toNat (by omega), hsh]
  rfl

/-! ## Loops -/

/-- The quotient and the remainder of `b * q + t`, where `t` is less than twice `b`. -/
theorem div_mod_of_lt_two_mul {b n q t : ℕ} (h : n = b * q + t) (hlt : t < 2 * b) :
    n / b = (if b ≤ t then q + 1 else q) ∧ n % b = if b ≤ t then t - b else t := by
  have hpos : 0 < b := by omega
  by_cases hle : b ≤ t
  · have hn : n = b * (q + 1) + (t - b) := by
      rw [h, mul_add, mul_one, add_assoc, Nat.add_sub_cancel' hle]
    rw [if_pos hle, if_pos hle, hn, mul_add_div hpos, mul_add_mod, div_eq_of_lt (by omega), mod_eq_of_lt (by omega)]
    exact ⟨rfl, rfl⟩
  · rw [if_neg hle, if_neg hle, h, mul_add_div hpos, mul_add_mod, div_eq_of_lt (by omega), mod_eq_of_lt (by omega)]
    exact ⟨rfl, rfl⟩

/-- One bit more of the left side: the quotient and the remainder of the bits above are doubled. -/
theorem div_mod_next_bit {a b x : ℕ} (hx : x < 128) (ha : lhs.toNat = a) (hlt : a < 2 ^ 127) (hpos : 0 < b) :
    ∃ q r bit, a / 2 ^ (x + 1) / b = q ∧ a / 2 ^ (x + 1) % b = r ∧ (lhs.isBitSet x = true ↔ bit = 1) ∧
      q < 2 ^ 126 ∧ r < 2 ^ 126 ∧ r < b ∧ bit < 2 ∧
      a / 2 ^ x / b = (if b ≤ 2 * r + bit then 2 * q + 1 else 2 * q) ∧
      a / 2 ^ x % b = if b ≤ 2 * r + bit then 2 * r + bit - b else 2 * r + bit := by
  have hhalf : a / 2 ^ (x + 1) = a / 2 ^ x / 2 := by rw [pow_succ, Nat.div_div_eq_div_mul]
  have hbit := @isBitSet_iff lhs x hx
  have hbd : a / 2 ^ x < 2 ^ 127 := (Nat.div_le_self _ _).trans_lt hlt
  rw [ha] at hbit
  rw [hhalf]
  generalize a / 2 ^ x = n at *
  have hqle : n / 2 / b ≤ n / 2 := Nat.div_le_self _ _
  have hrle : n / 2 % b ≤ n / 2 := mod_le _ _
  have hrlt : n / 2 % b < b := mod_lt _ hpos
  refine ⟨_, _, n % 2, rfl, rfl, hbit, by omega, by omega, hrlt, by omega, div_mod_of_lt_two_mul ?_ (by omega)⟩
  calc n = 2 * (n / 2) + n % 2 := (div_add_mod n 2).symm
    _ = 2 * (b * (n / 2 / b) + n / 2 % b) + n % 2 := by rw [div_add_mod (n / 2) b]
    _ = b * (2 * (n / 2 / b)) + (2 * (n / 2 % b) + n % 2) := by ring

/-- One bit more of the left side: quotient and remainder of the bits so far are kept, and remainders are in range. -/
theorem divModStep_spec {a b x : ℕ} {s : HugeInt × HugeInt} (hx : x < 128) (ha : lhs.toNat = a) (hlt : a < 2 ^ 127)
    (hb : rhs.toInt = b) (hpos : 0 < b) (hq : s.1.toInt = (a / 2 ^ (x + 1) / b : ℕ))
    (hr : s.2.toInt = (a / 2 ^ (x + 1) % b : ℕ)) :
    (divModStep lhs rhs x s).1.toInt = (a / 2 ^ x / b : ℕ) ∧ (divModStep lhs rhs x s).2.toInt = (a / 2 ^ x % b : ℕ) ∧
      2 * s.2.toInt + 1 < 2 ^ 127 := by
  obtain ⟨q, r, bit, hq', hr', hbit, hqlt, hrlt, -, hbd, hquo, hrem⟩ := div_mod_next_bit hx ha hlt hpos
  rw [hq'] at hq
  rw [hr'] at hr
  have hsh := toInt_leftShift hr (by omega)
  have hshiftq := toInt_leftShift hq (by omega)
  have hnx : (if lhs.isBitSet x then s.2.leftShift 1 + 1 else s.2.leftShift 1).toInt = (2 * r + bit : ℕ) := by
    by_cases hodd : bit = 1
    · have hsum := toInt_add (x := s.2.leftShift 1) (y := 1) (by rw [hsh, toInt_one, InRange]; omega)
      rw [if_pos (hbit.2 hodd), hsum, hsh, toInt_one, hodd]
      rfl
    · rw [if_neg (mt hbit.1 hodd), hsh, show bit = 0 by omega, Nat.add_zero]
      rfl
  rw [divModStep]
  generalize (if lhs.isBitSet x then s.2.leftShift 1 + 1 else s.2.leftShift 1) = next at hnx ⊢
  have hge : next.greaterThanEquals rhs = true ↔ b ≤ 2 * r + bit := by
    rw [greaterThanEquals_iff, hnx, hb, cast_le]
  rw [hquo, hrem]
  generalize htot : 2 * r + bit = t at *
  by_cases hle : b ≤ t
  · have hsum := toInt_add (x := s.1.leftShift 1) (y := 1) (by rw [hshiftq, toInt_one, InRange]; omega)
    have hsub := toInt_sub (x := next) (y := rhs) (by rw [hnx, hb, InRange]; omega)
    rw [if_pos (hge.2 hle), if_pos hle, if_pos hle, hsum, hsub, hshiftq, hnx, hb, toInt_one]
    omega
  · rw [if_neg (mt hge.1 hle), if_neg hle, if_neg hle, hshiftq, hnx]
    omega

/-- The loop divides the bits that it sees, and all remainders are in range. -/
theorem divModLoop_spec {a b : ℕ} (ha : lhs.toNat = a) (hlt : a < 2 ^ 127) (hb : rhs.toInt = b) (hpos : 0 < b) :
    ∀ {x : ℕ} {s : HugeInt × HugeInt}, x ≤ 128 → s.1.toInt = (a / 2 ^ x / b : ℕ) → s.2.toInt = (a / 2 ^ x % b : ℕ) →
      (divModLoop lhs rhs x s).1.toInt = (a / b : ℕ) ∧ (divModLoop lhs rhs x s).2.toInt = (a % b : ℕ) ∧
        ∀ r ∈ loopRemainders lhs rhs x s, InRange r := by
  intro x
  induction x with
  | zero =>
    intro s _ hq hr
    rw [pow_zero, Nat.div_one] at hq hr
    exact ⟨hq, hr, fun r hmem => absurd hmem (not_mem_nil)⟩
  | succ x ih =>
    intro s hx hq hr
    obtain ⟨hq', hr', hbd⟩ := divModStep_spec hx ha hlt hb hpos hq hr
    obtain ⟨hquo, hrem, hrng⟩ := ih (le_of_succ_le hx) hq' hr'
    refine ⟨hquo, hrem, fun r hmem => ?_⟩
    rw [loopRemainders] at hmem
    simp only [mem_cons] at hmem
    rcases hmem with rfl | rfl | rfl | hmem
    · rw [InRange]
      omega
    iterate 2
      · rw [InRange]
        split_ifs <;> omega
    · exact hrng r hmem

/-! ## Truncated division -/

/-- A division truncated to zero. -/
structure IsTruncated (a b q r : ℤ) : Prop where
  eq : a = q * b + r
  abs_lt : |r| < |b|
  sign_eq : r ≠ 0 → r.sign = a.sign

namespace IsTruncated

variable {a b q r : ℤ}

theorem of_nat (a : ℕ) {b : ℕ} (hb : 0 < b) : IsTruncated a b (a / b : ℕ) (a % b : ℕ) where
  eq := by
    rw [mul_comm]
    exact_mod_cast (div_add_mod a b).symm
  abs_lt := by
    rw [abs_cast, abs_cast, cast_lt]
    exact mod_lt a hb
  sign_eq h := by
    have hpos : 0 < a % b := Nat.pos_of_ne_zero fun hz => h (by rw [hz]; rfl)
    rw [Int.sign_eq_one_of_pos (by exact_mod_cast hpos),
      Int.sign_eq_one_of_pos (by exact_mod_cast hpos.trans_le (mod_le a b))]

theorem neg_left (h : IsTruncated a b q r) : IsTruncated (-a) b (-q) (-r) where
  eq := by rw [h.eq]; ring
  abs_lt := by rw [abs_neg]; exact h.abs_lt
  sign_eq hr := by rw [Int.sign_neg, Int.sign_neg, h.sign_eq (neg_ne_zero.1 hr)]

theorem neg_right (h : IsTruncated a b q r) : IsTruncated a (-b) (-q) r where
  eq := by rw [h.eq]; ring
  abs_lt := by rw [abs_neg]; exact h.abs_lt
  sign_eq := h.sign_eq

/-- The remainder of a negative number is not positive. -/
theorem nonpos (h : IsTruncated a b q r) (ha : a < 0) : r ≤ 0 := by
  refine not_lt.1 fun hr => ?_
  have hsign := h.sign_eq hr.ne'
  rw [Int.sign_eq_one_of_pos hr, Int.sign_eq_neg_one_of_neg ha] at hsign
  exact absurd hsign (by decide)

end IsTruncated

theorem toInt_magnitude {x : HugeInt} (h : x ≠ minimum) : x.magnitude.toInt = |x.toInt| := by
  rw [magnitude]
  split_ifs with hneg
  · rw [toInt_negateInPlace h, abs_of_neg (lt_zero_iff.1 hneg)]
  · rw [abs_of_nonneg (not_lt.1 fun hlt => hneg (lt_zero_iff.2 hlt))]

/-- A number that is not negative is not the minimum. -/
theorem ne_minimum_of_nonneg {x : HugeInt} (h : 0 ≤ x.toInt) : x ≠ minimum := by
  rintro rfl
  exact absurd h (by decide)

theorem divModMagnitudes_spec (hl : lhs ≠ minimum) (hr : rhs ≠ minimum) (hz : rhs ≠ 0) :
    (divModLoop lhs.magnitude rhs.magnitude lhs.magnitude.highestBit (0, 0)).1.toInt =
        (lhs.toInt.natAbs / rhs.toInt.natAbs : ℕ) ∧
      (divModLoop lhs.magnitude rhs.magnitude lhs.magnitude.highestBit (0, 0)).2.toInt =
        (lhs.toInt.natAbs % rhs.toInt.natAbs : ℕ) ∧
      ∀ r ∈ loopRemainders lhs.magnitude rhs.magnitude lhs.magnitude.highestBit (0, 0), InRange r := by
  have hint := toInt_magnitude hl
  have hnat := toNat_lt_of_nonneg (hint ▸ abs_nonneg _)
  have hlhs : lhs.magnitude.toNat = lhs.toInt.natAbs := by
    rw [toInt_eq_toNat hnat, Int.abs_eq_natAbs] at hint
    exact_mod_cast hint
  have hrhs : rhs.magnitude.toInt = rhs.toInt.natAbs := (toInt_magnitude hr).trans (Int.abs_eq_natAbs _)
  have hpos : 0 < rhs.toInt.natAbs := Int.natAbs_pos.2 fun h => hz (toInt_inj.1 (h.trans toInt_zero.symm))
  have hbits := toNat_lt_highestBit lhs.magnitude
  rw [hlhs] at hnat hbits
  refine divModLoop_spec hlhs hnat hrhs hpos ?_ ?_ ?_
  · exact highestBit_le _
  · rw [div_eq_of_lt hbits, Nat.zero_div]
    rfl
  · rw [div_eq_of_lt hbits, zero_mod]
    rfl

theorem isTruncated_divModSigned (hl : lhs ≠ minimum) (hr : rhs ≠ minimum) (hz : rhs ≠ 0) :
    IsTruncated lhs.toInt rhs.toInt (divModSigned lhs rhs).1.toInt (divModSigned lhs rhs).2.toInt := by
  obtain ⟨hq, hrem, -⟩ := divModMagnitudes_spec hl hr hz
  have hpos : 0 < rhs.toInt.natAbs := Int.natAbs_pos.2 fun h => hz (toInt_inj.1 (h.trans toInt_zero.symm))
  have hnat := IsTruncated.of_nat lhs.toInt.natAbs hpos
  rw [← hq, ← hrem, ← Int.abs_eq_natAbs, ← Int.abs_eq_natAbs, abs_toInt, abs_toInt] at hnat
  rw [divModSigned]
  generalize divModLoop lhs.magnitude rhs.magnitude lhs.magnitude.highestBit (0, 0) = s at *
  have hs₁ := toInt_negateInPlace (ne_minimum_of_nonneg (hq ▸ Int.natCast_nonneg _))
  have hs₂ := toInt_negateInPlace (ne_minimum_of_nonneg (hrem ▸ Int.natCast_nonneg _))
  revert hnat
  cases lhs.upper.slt 0 <;> cases rhs.upper.slt 0 <;> intro hnat
  · exact hnat
  · simpa [hs₁] using hnat.neg_right
  · simpa [hs₁, hs₂] using hnat.neg_left
  · simpa [hs₂] using hnat.neg_left.neg_right

/-- The remainders that are come across are all in range. -/
theorem inRange_signedRemainders (hl : lhs ≠ minimum) (hr : rhs ≠ minimum) (hz : rhs ≠ 0) :
    ∀ r ∈ signedRemainders lhs rhs, InRange r := by
  obtain ⟨-, hrem, hrng⟩ := divModMagnitudes_spec hl hr hz
  intro r hmem
  rw [signedRemainders, mem_append, mem_singleton] at hmem
  rcases hmem with hmem | rfl
  · exact hrng r hmem
  · generalize divModLoop lhs.magnitude rhs.magnitude lhs.magnitude.highestBit (0, 0) = s at hrem ⊢
    have hs := s.2.inRange_toInt
    rw [InRange] at hs ⊢
    split_ifs <;> omega

/-! ## The minimum -/

theorem toInt_sign (n : HugeInt) : n.sign.toInt = n.toInt.sign := by
  rcases lt_trichotomy n.toInt 0 with hlt | heq | hgt
  · have hless : n.lessThan 0 = true := lessThan_iff.2 hlt
    have hgr : ¬n.greaterThan 0 = true := fun h => absurd (greaterThan_iff.1 h) hlt.asymm
    rw [sign, if_pos hless, if_neg hgr, Int.sign_eq_neg_one_of_neg hlt]
    rfl
  · have hless : ¬n.lessThan 0 = true := fun h => absurd (lessThan_iff.1 h) heq.not_lt
    have hgr : ¬n.greaterThan 0 = true := fun h => absurd (greaterThan_iff.1 h) heq.not_gt
    rw [sign, if_neg hless, if_neg hgr, heq]
    rfl
  · have hless : ¬n.lessThan 0 = true := fun h => absurd (lessThan_iff.1 h) hgt.asymm
    have hgr : n.greaterThan 0 = true := greaterThan_iff.2 hgt
    rw [sign, if_neg hless, if_pos hgr, Int.sign_eq_one_of_pos hgt]
    rfl

theorem toInt_abs {n : HugeInt} (h : n ≠ minimum) : n.abs.toInt = |n.toInt| := by
  have hprod : n.toInt * n.sign.toInt = |n.toInt| := by rw [toInt_sign, Int.mul_sign_self, Int.abs_eq_natAbs]
  rw [abs, toInt_mul, hprod]
  rw [hprod, ← toInt_magnitude h]
  exact inRange_toInt _

/-- The minimum is divided by no number but minus one without a quotient. -/
theorem inRange_of_mul_eq_minimum {b c : ℤ} (h : c * b = -2 ^ 127) (hb : b ≠ -1) : InRange c := by
  have habs : |c| * |b| = 2 ^ 127 := by
    rw [← abs_mul, h]
    rfl
  have hpos : 0 < |b| := abs_pos.2 fun hz => by rw [hz, mul_zero] at h; exact absurd h (by decide)
  have hle : |c| ≤ 2 ^ 127 := by
    calc |c| = |c| * 1 := (mul_one _).symm
      _ ≤ |c| * |b| := mul_le_mul_of_nonneg_left hpos (abs_nonneg c)
      _ = 2 ^ 127 := habs
  have hne : c ≠ 2 ^ 127 := by
    rintro rfl
    omega
  rw [abs_le] at hle
  rw [InRange]
  omega

namespace IsTruncated

variable {b q r : ℤ}

/-- The 1 was missing to the remainder. -/
theorem adjust_quotient (h : IsTruncated (-2 ^ 127 + 1) b q r) (hr : -r + 1 = |b|) :
    IsTruncated (-2 ^ 127) b (q - b.sign) 0 where
  eq := by
    have heq := h.eq
    rw [sub_mul, Int.sign_mul_self_eq_abs, ← hr]
    omega
  abs_lt := by
    have hnn := abs_nonneg r
    have hneg := abs_of_nonpos (h.nonpos (by decide))
    rw [abs_zero]
    omega
  sign_eq hz := absurd rfl hz

theorem adjust_remainder (h : IsTruncated (-2 ^ 127 + 1) b q r) (hr : -r + 1 ≠ |b|) :
    IsTruncated (-2 ^ 127) b q (r - 1) where
  eq := by
    have heq := h.eq
    omega
  abs_lt := by
    have hnonpos := h.nonpos (by decide)
    have hlt := h.abs_lt
    rw [abs_of_nonpos hnonpos] at hlt
    rw [abs_of_nonpos (by omega)]
    omega
  sign_eq _ := by
    have hnonpos := h.nonpos (by decide)
    rw [Int.sign_eq_neg_one_of_neg (by omega)]
    rfl

end IsTruncated

/-- The division of the successor of the minimum is corrected. -/
theorem isTruncated_divModMinimum_of_ne (hz : rhs ≠ 0) (hr : rhs ≠ minimum) (hone : rhs.toInt ≠ -1) :
    IsTruncated minimum.toInt rhs.toInt (divModMinimum minimum rhs).1.toInt (divModMinimum minimum rhs).2.toInt ∧
      ∀ r ∈ minimumRemainders minimum rhs, InRange r := by
  have hsucc : minimum + 1 ≠ minimum := by decide
  have hsuccInt : (minimum + 1).toInt = -2 ^ 127 + 1 := by decide
  have htrunc := isTruncated_divModSigned hsucc hr hz
  have hremainders := inRange_signedRemainders hsucc hr hz
  rw [divModMinimum, minimumRemainders, if_neg hr, if_neg hr, toInt_minimum]
  generalize divModSigned (minimum + 1) rhs = s at *
  have hrhs := toInt_magnitude hr ▸ rhs.magnitude.inRange_toInt
  have hlt := htrunc.abs_lt
  have hnonpos := htrunc.nonpos (by decide)
  have habs := abs_of_nonpos hnonpos
  rw [InRange] at hrhs
  have hne : s.2 ≠ minimum := by
    intro h
    rw [h, toInt_minimum] at habs hlt
    omega
  have hsum : (s.2.abs + 1).toInt = |s.2.toInt| + 1 := by
    have hrng : InRange (s.2.abs.toInt + (1 : HugeInt).toInt) := by
      rw [toInt_abs hne, toInt_one, InRange]
      omega
    rw [toInt_add hrng, toInt_abs hne, toInt_one]
  have hmatters : s.2.abs + 1 = rhs.abs ↔ |s.2.toInt| + 1 = |rhs.toInt| := by
    rw [← toInt_inj, hsum, toInt_abs hr]
  have hcomn (last : ℤ) (hlst : InRange last) :
      ∀ r ∈ signedRemainders (minimum + 1) rhs ++ [|s.2.toInt|, |s.2.toInt| + 1, last], InRange r := by
    intro r hmem
    rw [mem_append] at hmem
    simp only [mem_cons, not_mem_nil, or_false] at hmem
    rcases hmem with hmem | rfl | rfl | rfl
    · exact hremainders r hmem
    · rw [InRange]
      omega
    · rw [InRange]
      omega
    · exact hlst
  by_cases hadjust : |s.2.toInt| + 1 = |rhs.toInt|
  · have hadjusted := htrunc.adjust_quotient (by rwa [habs] at hadjust)
    have hex : (s.1.toInt - rhs.toInt.sign) * rhs.toInt = -2 ^ 127 := by
      have heq := hadjusted.eq
      rw [add_zero] at heq
      exact heq.symm
    have hrng : InRange (s.1.toInt - rhs.sign.toInt) := by
      rw [toInt_sign]
      exact inRange_of_mul_eq_minimum hex hone
    have hquo : (s.1 - rhs.sign).toInt = s.1.toInt - rhs.toInt.sign := by rw [toInt_sub hrng, toInt_sign]
    simp only [if_pos (hmatters.2 hadjust), if_pos hadjust]
    exact ⟨hquo ▸ hadjusted, hcomn 0 (by decide)⟩
  · have hrng : InRange (s.2.toInt - 1) := by
      rw [InRange]
      omega
    have hrem : (s.2 - 1).toInt = s.2.toInt - 1 := toInt_sub hrng
    simp only [if_neg (mt hmatters.1 hadjust), if_neg hadjust, hrem]
    exact ⟨htrunc.adjust_remainder (by rwa [habs] at hadjust), hcomn _ hrng⟩

/-- Nothing but the minimum itself has the minimum as a divisor. -/
theorem isTruncated_divModMinimum (hz : rhs ≠ 0) (hmin : lhs = minimum ∨ rhs = minimum)
    (hone : ¬(lhs = minimum ∧ rhs = ofInt64 (-1))) :
    IsTruncated lhs.toInt rhs.toInt (divModMinimum lhs rhs).1.toInt (divModMinimum lhs rhs).2.toInt ∧
      ∀ r ∈ minimumRemainders lhs rhs, InRange r := by
  by_cases hr : rhs = minimum
  · rw [divModMinimum, minimumRemainders, if_pos hr, if_pos hr, hr]
    by_cases hl : lhs = minimum
    · rw [if_pos hl, if_pos hl, hl]
      exact ⟨⟨by decide, by decide, by decide⟩, by decide⟩
    · rw [if_neg hl, if_neg hl]
      refine ⟨⟨?_, ?_, fun _ => rfl⟩, fun r hmem => ?_⟩
      · rw [toInt_zero, zero_mul, zero_add]
      · rw [← toInt_magnitude hl, toInt_minimum]
        exact lhs.magnitude.inRange_toInt.2
      · rw [mem_singleton.1 hmem]
        exact lhs.inRange_toInt
  · obtain rfl := hmin.resolve_right hr
    exact isTruncated_divModMinimum_of_ne hz hr fun h => hone ⟨rfl, toInt_inj.1 (h.trans (by decide))⟩

theorem isTruncated_divMod (hz : rhs ≠ 0) (hone : ¬(lhs = minimum ∧ rhs = ofInt64 (-1))) :
    IsTruncated lhs.toInt rhs.toInt (divMod lhs rhs).1.toInt (divMod lhs rhs).2.toInt ∧
      ∀ r ∈ divModRemainders lhs rhs, InRange r := by
  rw [divMod, divModRemainders, if_neg hz, if_neg hz]
  by_cases hmin : lhs = minimum ∨ rhs = minimum
  · rw [if_pos hmin, if_pos hmin]
    exact isTruncated_divModMinimum hz hmin hone
  · obtain ⟨hl, hr⟩ := not_or.1 hmin
    rw [if_neg hmin, if_neg hmin]
    exact ⟨isTruncated_divModSigned hl hr hz, inRange_signedRemainders hl hr hz⟩

/-! ## Division by a word -/

/-- The increment of the words is that of the number. -/
theorem increment_eq (x : HugeInt) :
    (⟨if x.lower + 1 = 0 then x.upper + 1 else x.upper, x.lower + 1⟩ : HugeInt) = x + 1 := by
  have hcar : x.lower + 1 = 0 ↔ x.lower + 1 < x.lower := by
    have hone : (1 : BitVec 64).toNat = 1 := rfl
    have hz : (0 : BitVec 64).toNat = 0 := rfl
    rw [← BitVec.toNat_inj, BitVec.lt_def, BitVec.toNat_add, hone, hz]
    omega
  change _ = add x 1
  have hup : x.upper + (1 : HugeInt).upper = x.upper := BitVec.add_zero _
  rw [add, hup]
  by_cases h : x.lower + 1 = 0
  · rw [if_pos h]
    exact congrArg₂ HugeInt.mk (congrArg (x.upper + ·) (if_pos (hcar.1 h)).symm) rfl
  · rw [if_neg h]
    exact congrArg₂ HugeInt.mk ((BitVec.add_zero _).symm.trans
      (congrArg (x.upper + ·) (if_neg (mt hcar.2 h)).symm)) rfl

/-- One bit more of the left side: a remainder of less than 63 bits can be shifted. -/
theorem divModPositiveStep_spec {word : BitVec 64} {a b x : ℕ} {s : HugeInt × BitVec 64} (hx : x < 128)
    (ha : lhs.toNat = a) (hlt : a < 2 ^ 127) (hb : word.toNat = b) (hpos : 0 < b) (hle : b ≤ 2 ^ 63)
    (hq : s.1.toInt = (a / 2 ^ (x + 1) / b : ℕ)) (hr : s.2.toNat = a / 2 ^ (x + 1) % b) :
    (divModPositiveStep lhs word x s).1.toInt = (a / 2 ^ x / b : ℕ) ∧
      (divModPositiveStep lhs word x s).2.toNat = a / 2 ^ x % b := by
  obtain ⟨q, r, bit, hq', hr', hbit, hqlt, -, hrlt, hbd, hquo, hrem⟩ := div_mod_next_bit hx ha hlt hpos
  rw [hq'] at hq
  rw [hr'] at hr
  have hsh : (s.2 <<< 1).toNat = 2 * r := by
    rw [BitVec.toNat_shiftLeft, hr, shiftLeft_eq]
    omega
  have hshiftq := toInt_leftShift hq (by omega)
  have hone : (1 : BitVec 64).toNat = 1 := rfl
  have hnx : (if lhs.isBitSet x then s.2 <<< 1 + 1 else s.2 <<< 1).toNat = 2 * r + bit := by
    by_cases hodd : bit = 1
    · rw [if_pos (hbit.2 hodd), BitVec.toNat_add, hsh, hone]
      omega
    · rw [if_neg (mt hbit.1 hodd), hsh]
      omega
  rw [divModPositiveStep]
  generalize (if lhs.isBitSet x then s.2 <<< 1 + 1 else s.2 <<< 1) = next at hnx ⊢
  have hge : next ≥ word ↔ b ≤ 2 * r + bit := by rw [ge_iff_le, BitVec.le_def, hnx, hb]
  rw [hquo, hrem]
  generalize htot : 2 * r + bit = t at *
  by_cases hle : b ≤ t
  · have hsum := toInt_add (x := s.1.leftShift 1) (y := 1) (by rw [hshiftq, toInt_one, InRange]; omega)
    rw [if_pos (hge.2 hle), if_pos hle, if_pos hle]
    dsimp only
    rw [increment_eq, hsum, hshiftq, toInt_one, BitVec.toNat_sub, hnx, hb]
    omega
  · rw [if_neg (mt hge.1 hle), if_neg hle, if_neg hle, hshiftq, hnx]
    omega

theorem divModPositiveLoop_spec {word : BitVec 64} {a b : ℕ} (ha : lhs.toNat = a) (hlt : a < 2 ^ 127)
    (hb : word.toNat = b) (hpos : 0 < b) (hle : b ≤ 2 ^ 63) : ∀ {x : ℕ} {s : HugeInt × BitVec 64}, x ≤ 128 →
      s.1.toInt = (a / 2 ^ x / b : ℕ) → s.2.toNat = a / 2 ^ x % b →
      (divModPositiveLoop lhs word x s).1.toInt = (a / b : ℕ) ∧
        (divModPositiveLoop lhs word x s).2.toNat = a % b := by
  intro x
  induction x with
  | zero =>
    intro s _ hq hr
    rw [pow_zero, Nat.div_one] at hq hr
    exact ⟨hq, hr⟩
  | succ x ih =>
    intro s hx hq hr
    obtain ⟨hq', hr'⟩ := divModPositiveStep_spec hx ha hlt hb hpos hle hq hr
    exact ih (le_of_succ_le hx) hq' hr'

theorem isTruncated_divModPositive {word : BitVec 64} (hnn : 0 ≤ lhs.toInt) (hpos : 1 ≤ word.toNat)
    (hle : word.toNat ≤ 2 ^ 63) :
    IsTruncated lhs.toInt word.toNat (divModPositive lhs word).1.toInt (divModPositive lhs word).2.toNat := by
  have hlt := toNat_lt_of_nonneg hnn
  have hbits := toNat_lt_highestBit lhs
  obtain ⟨hq, hr⟩ := divModPositiveLoop_spec rfl hlt rfl hpos hle (highestBit_le lhs)
    (s := (0, 0)) (by rw [div_eq_of_lt hbits, Nat.zero_div]; rfl)
    (by rw [div_eq_of_lt hbits, zero_mod]; rfl)
  rw [divModPositive, hq, hr, toInt_eq_toNat hlt]
  exact IsTruncated.of_nat _ hpos

/-- The divisions of a value are truncated to zero. -/
structure DividesTruncated (lhs rhs : HugeInt) : Prop where
  divMod : rhs ≠ 0 → ¬(lhs = minimum ∧ rhs = ofInt64 (-1)) →
    IsTruncated lhs.toInt rhs.toInt (divMod lhs rhs).1.toInt (divMod lhs rhs).2.toInt
  remainders : rhs ≠ 0 → ¬(lhs = minimum ∧ rhs = ofInt64 (-1)) → ∀ r ∈ divModRemainders lhs rhs, InRange r
  tryDivMod : tryDivMod lhs rhs =
    if rhs = 0 ∨ lhs = minimum ∧ rhs = ofInt64 (-1) then none else some (HugeInt.divMod lhs rhs)
  divModPositive (word : BitVec 64) : 0 ≤ lhs.toInt → 1 ≤ word.toNat → word.toNat ≤ 2 ^ 63 →
    IsTruncated lhs.toInt word.toNat (divModPositive lhs word).1.toInt (divModPositive lhs word).2.toNat

/-- Division is truncated to zero, whatever the sides, and no remainder is out of range on the way. -/
theorem dividesTruncated (lhs rhs : HugeInt) : DividesTruncated lhs rhs where
  divMod hzero hone := (isTruncated_divMod hzero hone).1
  remainders hzero hone := (isTruncated_divMod hzero hone).2
  tryDivMod := by
    rw [tryDivMod]
    by_cases hzero : rhs = 0
    · rw [if_pos hzero, if_pos (.inl hzero)]
    · rw [if_neg hzero]
      exact if_congr (or_iff_right hzero).symm rfl rfl
  divModPositive word := isTruncated_divModPositive

end HugeInt

end WfOpt

import WfOpt.Common.UHugeInt

/-!
# Signed integers of 128 bits

`hugeint_t` is two words of 64 bits, the upper of them signed. The operators are exact modulo `2 ^ 128`
(`modEq_add`, `modEq_sub`, `modEq_negate`), hence exact if the exact number is one of 128 bits
(`toInt_eq_of_modEq`). The checked sum and difference decide from the upper words, and a carry, whether it is, and
refuse no other operands (`tryAddInPlace_spec`, `trySubtractInPlace_spec`).
-/

namespace WfOpt

/-- `hugeint_t`: the upper word is an `int64_t`, the lower one a `uint64_t`. -/
structure HugeInt where
  upper : BitVec 64
  lower : BitVec 64
  deriving DecidableEq, Repr

namespace HugeInt

/-! ## Operators -/

/-- The conversion of an `int64_t`. -/
def ofInt64 (value : BitVec 64) : HugeInt := ⟨if value.slt 0 then -1 else 0, value⟩

instance : OfNat HugeInt n := ⟨ofInt64 (BitVec.ofNat 64 n)⟩

/-- `NumericLimits<hugeint_t>::Minimum` -/
def minimum : HugeInt := ⟨BitVec.intMin 64, 0⟩

/-- `operator+` -/
def add (lhs rhs : HugeInt) : HugeInt :=
  ⟨lhs.upper + rhs.upper + (if lhs.lower + rhs.lower < lhs.lower then 1 else 0), lhs.lower + rhs.lower⟩

/-- `operator-` -/
def sub (lhs rhs : HugeInt) : HugeInt :=
  ⟨lhs.upper - rhs.upper - (if lhs.lower - rhs.lower > lhs.lower then 1 else 0), lhs.lower - rhs.lower⟩

instance : Add HugeInt := ⟨add⟩
instance : Sub HugeInt := ⟨sub⟩

/-- `Hugeint::NegateInPlace<false>` -/
def negateInPlace (input : HugeInt) : HugeInt := let lower := BitVec.allOnes 64 - input.lower + 1
  ⟨-1 - input.upper + (if lower = 0 then 1 else 0), lower⟩

/-- `Hugeint::TryNegate` -/
def tryNegate (input : HugeInt) : Option HugeInt :=
  if input.upper = BitVec.intMin 64 ∧ input.lower = 0 then none else some input.negateInPlace

/-- `Hugeint::LessThan` -/
def lessThan (lhs rhs : HugeInt) : Bool :=
  lhs.upper.slt rhs.upper || (lhs.upper = rhs.upper && lhs.lower < rhs.lower)

/-- `Hugeint::GreaterThan` -/
def greaterThan (lhs rhs : HugeInt) : Bool :=
  rhs.upper.slt lhs.upper || (lhs.upper = rhs.upper && lhs.lower > rhs.lower)

/-- `Hugeint::GreaterThanEquals` -/
def greaterThanEquals (lhs rhs : HugeInt) : Bool :=
  rhs.upper.slt lhs.upper || (lhs.upper = rhs.upper && lhs.lower ≥ rhs.lower)

/-- `Hugeint::TryAddInPlace`: whether the sum is one of 128 bits, and what is left in `lhs`. -/
def tryAddInPlace (lhs rhs : HugeInt) : Bool × HugeInt :=
  let overflow : BitVec 64 := if lhs.lower + rhs.lower < lhs.lower then 1 else 0
  if BitVec.sle 0 rhs.upper then
    -- RHS is positive: check for overflow
    if (BitVec.intMax 64 - rhs.upper - overflow).slt lhs.upper then (false, lhs)
    else (true, ⟨lhs.upper + overflow + rhs.upper, lhs.lower + rhs.lower⟩)
  else
    -- RHS is negative: check for underflow
    if lhs.upper.slt (BitVec.intMin 64 - rhs.upper - overflow) then (false, lhs)
    else (true, ⟨lhs.upper + (overflow + rhs.upper), lhs.lower + rhs.lower⟩)

/-- `Hugeint::TrySubtractInPlace`: whether the difference is one of 128 bits, and what is left in `lhs`. -/
def trySubtractInPlace (lhs rhs : HugeInt) : Bool × HugeInt :=
  let underflow : BitVec 64 := if lhs.lower - rhs.lower > lhs.lower then 1 else 0
  if BitVec.sle 0 rhs.upper then
    -- RHS is positive: check for underflow
    if lhs.upper.slt (BitVec.intMin 64 + rhs.upper + underflow) then (false, lhs)
    else (true, ⟨lhs.upper - rhs.upper - underflow, lhs.lower - rhs.lower⟩)
  else
    -- RHS is negative: check for overflow
    if (BitVec.intMin 64).slt lhs.upper &&
        (BitVec.intMax 64 + rhs.upper + underflow).sle (lhs.upper - 1) then (false, lhs)
    else (true, ⟨lhs.upper - (rhs.upper + underflow), lhs.lower - rhs.lower⟩)

/-! ## Numbers -/

/-- The number of both words. -/
def toInt (x : HugeInt) : ℤ := x.upper.toInt * 2 ^ 64 + x.lower.toNat

/-- The number is one of 128 bits. -/
def InRange (value : ℤ) : Prop := -2 ^ 127 ≤ value ∧ value < 2 ^ 127

instance (value : ℤ) : Decidable (InRange value) := inferInstanceAs (Decidable (_ ∧ _))

variable {x y : HugeInt}

theorem inRange_toInt (x : HugeInt) : InRange x.toInt := by
  have hup := x.upper.le_toInt
  have hup' := x.upper.toInt_lt
  rw [InRange, toInt]
  omega

theorem toInt_inj : x.toInt = y.toInt ↔ x = y := by
  refine ⟨fun h => ?_, congrArg toInt⟩
  obtain ⟨xu, xl⟩ := x
  obtain ⟨yu, yl⟩ := y
  rw [toInt, toInt] at h
  dsimp only at h
  have hup : xu.toInt = yu.toInt := by omega
  have hlow : xl.toNat = yl.toNat := by omega
  rw [BitVec.eq_of_toInt_eq hup, BitVec.eq_of_toNat_eq hlow]

/-- Numbers of 128 bits are told apart modulo `2 ^ 128`. -/
theorem toInt_eq_of_modEq {value : ℤ} (h : x.toInt ≡ value [ZMOD 2 ^ 128]) (hval : InRange value) :
    x.toInt = value := by
  have hx := x.inRange_toInt
  rw [InRange] at hx hval
  rw [Int.ModEq] at h
  omega

@[simp] theorem toInt_zero : (0 : HugeInt).toInt = 0 := rfl

@[simp] theorem toInt_one : (1 : HugeInt).toInt = 1 := rfl

@[simp] theorem toInt_minimum : minimum.toInt = -2 ^ 127 := rfl

theorem lt_zero_iff : x.upper.slt 0 = true ↔ x.toInt < 0 := by
  rw [BitVec.slt_iff_toInt_lt, toInt]
  change x.upper.toInt < 0 ↔ _
  omega

theorem abs_toInt (x : HugeInt) : |x.toInt| = if x.upper.slt 0 = true then -x.toInt else x.toInt := by
  split_ifs with hneg
  · exact abs_of_neg (lt_zero_iff.1 hneg)
  · exact abs_of_nonneg (not_lt.1 fun hlt => hneg (lt_zero_iff.2 hlt))

theorem lessThan_iff : x.lessThan y = true ↔ x.toInt < y.toInt := by
  rw [lessThan, toInt, toInt]
  simp only [Bool.or_eq_true, Bool.and_eq_true, decide_eq_true_eq, BitVec.slt_iff_toInt_lt, BitVec.lt_def,
    ← BitVec.toInt_inj]
  omega

theorem greaterThan_iff : x.greaterThan y = true ↔ y.toInt < x.toInt := by
  rw [greaterThan, toInt, toInt]
  simp only [Bool.or_eq_true, Bool.and_eq_true, decide_eq_true_eq, BitVec.slt_iff_toInt_lt, gt_iff_lt,
    BitVec.lt_def, ← BitVec.toInt_inj]
  omega

theorem greaterThanEquals_iff : x.greaterThanEquals y = true ↔ y.toInt ≤ x.toInt := by
  rw [greaterThanEquals, toInt, toInt]
  simp only [Bool.or_eq_true, Bool.and_eq_true, decide_eq_true_eq, BitVec.slt_iff_toInt_lt, ge_iff_le,
    BitVec.le_def, ← BitVec.toInt_inj]
  omega

/-! ## Words -/

/-- A signed word is the unsigned one modulo `2 ^ 64`. -/
theorem modEq_word (word : BitVec 64) : word.toInt ≡ word.toNat [ZMOD 2 ^ 64] := by
  rw [Int.ModEq, BitVec.toInt_eq_toNat_cond]
  split_ifs <;> omega

/-- The number modulo `2 ^ 128` is that of the unsigned words. -/
theorem modEq_words (x : HugeInt) : x.toInt ≡ x.upper.toNat * 2 ^ 64 + x.lower.toNat [ZMOD 2 ^ 128] := by
  have h := modEq_word x.upper
  rw [Int.ModEq] at h ⊢
  rw [toInt]
  omega

/-- The words are carried over by a sum. -/
theorem modEq_add (x y : HugeInt) : (x + y).toInt ≡ x.toInt + y.toInt [ZMOD 2 ^ 128] := by
  have hsum := UHugeInt.toNat_add ⟨x.upper, x.lower⟩ ⟨y.upper, y.lower⟩
  have hx := modEq_words x
  have hy := modEq_words y
  have hxy := modEq_words (x + y)
  change (x + y).upper.toNat * 2 ^ 64 + (x + y).lower.toNat =
    (x.upper.toNat * 2 ^ 64 + x.lower.toNat + (y.upper.toNat * 2 ^ 64 + y.lower.toNat)) % 2 ^ 128 at hsum
  rw [Int.ModEq] at hx hy hxy ⊢
  omega

/-- The words are borrowed from by a difference. -/
theorem modEq_sub (x y : HugeInt) : (x - y).toInt ≡ x.toInt - y.toInt [ZMOD 2 ^ 128] := by
  have hx := modEq_words x
  have hy := modEq_words y
  have hxy := modEq_words (x - y)
  have hborrow : x.lower - y.lower > x.lower ↔ x.lower.toNat < y.lower.toNat := by
    rw [gt_iff_lt, BitVec.lt_def, BitVec.toNat_sub]
    omega
  change _ ≡ ((x.upper - y.upper - (if x.lower - y.lower > x.lower then 1 else 0) : BitVec 64).toNat : ℤ) *
    2 ^ 64 + ((x.lower - y.lower).toNat : ℤ) [ZMOD 2 ^ 128] at hxy
  have hz : (0 : BitVec 64).toNat = 0 := rfl
  have hone : (1 : BitVec 64).toNat = 1 := rfl
  rw [Int.ModEq] at hx hy hxy ⊢
  simp only [hborrow] at hxy
  split_ifs at hxy <;> simp only [BitVec.toNat_sub] at hxy <;> omega

theorem toNat_complement {minus : BitVec 64} (hminus : minus.toNat = 2 ^ 64 - 1) (word : BitVec 64) :
    (minus - word).toNat = 2 ^ 64 - 1 - word.toNat := by
  rw [BitVec.toNat_sub, hminus]
  omega

/-- The complement of the words, plus one. -/
theorem modEq_negate (x : HugeInt) : x.negateInPlace.toInt ≡ -x.toInt [ZMOD 2 ^ 128] := by
  obtain ⟨upper, lower⟩ := x
  have hz : (0 : BitVec 64).toNat = 0 := rfl
  have hone : (1 : BitVec 64).toNat = 1 := rfl
  have hx := modEq_words ⟨upper, lower⟩
  have hneg := modEq_words (negateInPlace ⟨upper, lower⟩)
  dsimp only at hx
  dsimp only [negateInPlace] at hneg ⊢
  have hup : (-1 - upper).toNat = 2 ^ 64 - 1 - upper.toNat := toNat_complement rfl upper
  have hlow : (BitVec.allOnes 64 - lower + 1).toNat = (2 ^ 64 - 1 - lower.toNat + 1) % 2 ^ 64 := by
    rw [BitVec.toNat_add, toNat_complement BitVec.toNat_allOnes, hone]
  by_cases hcar : BitVec.allOnes 64 - lower + 1 = 0
  · -- the carry goes into the upper word
    rw [if_pos hcar, BitVec.toNat_add, hone, hup, hlow] at hneg
    rw [hcar, hz] at hlow
    rw [if_pos hcar]
    rw [Int.ModEq] at hx hneg ⊢
    omega
  · have hne : (BitVec.allOnes 64 - lower + 1).toNat ≠ 0 := fun h => hcar (BitVec.eq_of_toNat_eq h)
    rw [if_neg hcar, BitVec.toNat_add, hz, hup, hlow] at hneg
    rw [hlow] at hne
    rw [if_neg hcar]
    rw [Int.ModEq] at hx hneg ⊢
    omega

theorem toInt_add (h : InRange (x.toInt + y.toInt)) : (x + y).toInt = x.toInt + y.toInt :=
  toInt_eq_of_modEq (modEq_add x y) h

theorem toInt_sub (h : InRange (x.toInt - y.toInt)) : (x - y).toInt = x.toInt - y.toInt :=
  toInt_eq_of_modEq (modEq_sub x y) h

theorem toInt_negateInPlace (h : x ≠ minimum) : x.negateInPlace.toInt = -x.toInt := by
  refine toInt_eq_of_modEq (modEq_negate x) ?_
  have hx := x.inRange_toInt
  have hne : x.toInt ≠ -2 ^ 127 := fun heq => h (toInt_inj.1 (heq.trans toInt_minimum.symm))
  rw [InRange] at hx ⊢
  omega

/-- The minimum has no negation; every other number has. -/
theorem tryNegate_eq (x : HugeInt) : x.tryNegate = if x = minimum then none else some x.negateInPlace := by
  refine if_congr ?_ rfl rfl
  rw [minimum, HugeInt.mk.injEq]

/-! ## Checked sums and differences -/

/-- A sum of words that is a word does not wrap around. -/
theorem toInt_word_add {a b : BitVec 64} (hle : -2 ^ 63 ≤ a.toInt + b.toInt) (hlt : a.toInt + b.toInt < 2 ^ 63) :
    (a + b).toInt = a.toInt + b.toInt := by
  rw [BitVec.toInt_add]
  exact Int.bmod_eq_of_le (by omega) (by omega)

/-- A difference of words that is a word does not wrap around. -/
theorem toInt_word_sub {a b : BitVec 64} (hle : -2 ^ 63 ≤ a.toInt - b.toInt) (hlt : a.toInt - b.toInt < 2 ^ 63) :
    (a - b).toInt = a.toInt - b.toInt := by
  rw [BitVec.toInt_sub]
  exact Int.bmod_eq_of_le (by omega) (by omega)

/-- The carry of the lower words, as an upper one. -/
theorem carry_spec (a b : BitVec 64) : ∃ carry : BitVec 64, (if a + b < a then 1 else 0) = carry ∧
    0 ≤ carry.toInt ∧ carry.toInt ≤ 1 ∧ ((a + b).toNat : ℤ) + carry.toInt * 2 ^ 64 = a.toNat + b.toNat := by
  have hcar : a + b < a ↔ 2 ^ 64 ≤ a.toNat + b.toNat := by
    rw [BitVec.lt_def, BitVec.toNat_add]
    omega
  have hz : (0 : BitVec 64).toInt = 0 := rfl
  have hone : (1 : BitVec 64).toInt = 1 := rfl
  refine ⟨_, rfl, ?_⟩
  simp only [hcar, BitVec.toNat_add]
  split_ifs <;> simp only [hz, hone] <;> omega

/-- The borrow of the lower words, as an upper one. -/
theorem borrow_spec (a b : BitVec 64) : ∃ borrow : BitVec 64, (if a - b > a then 1 else 0) = borrow ∧
    0 ≤ borrow.toInt ∧ borrow.toInt ≤ 1 ∧ ((a - b).toNat : ℤ) = a.toNat - b.toNat + borrow.toInt * 2 ^ 64 := by
  have hborrow : a - b > a ↔ a.toNat < b.toNat := by
    rw [gt_iff_lt, BitVec.lt_def, BitVec.toNat_sub]
    omega
  have hz : (0 : BitVec 64).toInt = 0 := rfl
  have hone : (1 : BitVec 64).toInt = 1 := rfl
  refine ⟨_, rfl, ?_⟩
  simp only [hborrow, BitVec.toNat_sub]
  split_ifs <;> simp only [hz, hone] <;> omega

/-- Three words are added one after the other. -/
theorem toInt_word_add_add {a b c : BitVec 64} (hle : -2 ^ 63 ≤ a.toInt + b.toInt) (hlt : a.toInt + b.toInt < 2 ^ 63)
    (hle' : -2 ^ 63 ≤ a.toInt + b.toInt + c.toInt) (hlt' : a.toInt + b.toInt + c.toInt < 2 ^ 63) :
    (a + b + c).toInt = a.toInt + b.toInt + c.toInt := by
  have hab := toInt_word_add hle hlt
  rw [← hab] at hle' hlt' ⊢
  exact toInt_word_add hle' hlt'

theorem toInt_word_sub_sub {a b c : BitVec 64} (hle : -2 ^ 63 ≤ a.toInt - b.toInt) (hlt : a.toInt - b.toInt < 2 ^ 63)
    (hle' : -2 ^ 63 ≤ a.toInt - b.toInt - c.toInt) (hlt' : a.toInt - b.toInt - c.toInt < 2 ^ 63) :
    (a - b - c).toInt = a.toInt - b.toInt - c.toInt := by
  have hab := toInt_word_sub hle hlt
  rw [← hab] at hle' hlt' ⊢
  exact toInt_word_sub hle' hlt'

theorem toInt_intMax : (BitVec.intMax 64).toInt = 2 ^ 63 - 1 := rfl

theorem toInt_intMin : (BitVec.intMin 64).toInt = -2 ^ 63 := rfl

theorem zero_sle_iff {word : BitVec 64} : BitVec.sle 0 word = true ↔ 0 ≤ word.toInt := BitVec.sle_iff_toInt_le

/-- An operation in place succeeds on the exact results of 128 bits only, and leaves its operand unchanged otherwise. -/
structure InPlace (lhs : HugeInt) (exact : ℤ) (outcome : Bool × HugeInt) : Prop where
  succeeds_iff : outcome.1 = true ↔ InRange exact
  eq : outcome.1 = true → outcome.2.toInt = exact
  unchanged : outcome.1 = false → outcome.2 = lhs

theorem InPlace.of_not_inRange {lhs : HugeInt} {exact : ℤ} (h : ¬InRange exact) : InPlace lhs exact (false, lhs) :=
  ⟨⟨fun hfls => absurd hfls Bool.false_ne_true, fun hrng => absurd hrng h⟩,
    fun hfls => absurd hfls Bool.false_ne_true, fun _ => rfl⟩

theorem InPlace.of_eq {lhs result : HugeInt} {exact : ℤ} (h : result.toInt = exact) :
    InPlace lhs exact (true, result) :=
  ⟨⟨fun _ => h ▸ result.inRange_toInt, fun _ => rfl⟩, fun _ => h, fun htrue => absurd htrue.symm Bool.false_ne_true⟩

/-- The exact result is one of 128 bits if its upper word is one of 64 bits. -/
theorem InPlace.of_refused {lhs : HugeInt} {exact word : ℤ} {upper lower : BitVec 64} {refused : Prop}
    [Decidable refused] (hex : exact = word * 2 ^ 64 + lower.toNat) (hup : upper.toInt = word.bmod (2 ^ 64))
    (hrefused : refused ↔ word < -2 ^ 63 ∨ 2 ^ 63 ≤ word) :
    InPlace lhs exact (if refused then (false, lhs) else (true, ⟨upper, lower⟩)) := by
  have hlow := lower.isLt
  by_cases h : refused
  · rw [if_pos h]
    refine of_not_inRange ?_
    have hword := hrefused.1 h
    rw [InRange]
    omega
  · rw [if_neg h]
    refine of_eq ?_
    have hword := mt hrefused.2 h
    rw [toInt, hex, hup, Int.bmod_eq_of_le (by omega) (by omega)]

theorem tryAddInPlace_spec (lhs rhs : HugeInt) : InPlace lhs (lhs.toInt + rhs.toInt) (tryAddInPlace lhs rhs) := by
  obtain ⟨carry, hcar, hnn, hle, hlow⟩ := carry_spec lhs.lower rhs.lower
  have hl := lhs.upper.le_toInt
  have hl' := lhs.upper.toInt_lt
  have hr := rhs.upper.le_toInt
  have hr' := rhs.upper.toInt_lt
  have hex : lhs.toInt + rhs.toInt =
      (lhs.upper.toInt + carry.toInt + rhs.upper.toInt) * 2 ^ 64 + (lhs.lower + rhs.lower).toNat := by
    rw [toInt, toInt]
    omega
  rw [tryAddInPlace, hcar]
  by_cases hposi : 0 ≤ rhs.upper.toInt
  · have hbd : (BitVec.intMax 64 - rhs.upper - carry).toInt = 2 ^ 63 - 1 - rhs.upper.toInt - carry.toInt := by
      refine toInt_word_sub_sub ?_ ?_ ?_ ?_ <;> rw [toInt_intMax] <;> omega
    rw [if_pos (zero_sle_iff.2 hposi)]
    refine .of_refused hex (by simp [BitVec.toInt_add]) ?_
    rw [BitVec.slt_iff_toInt_lt, hbd]
    omega
  · have hbd : (BitVec.intMin 64 - rhs.upper - carry).toInt = -2 ^ 63 - rhs.upper.toInt - carry.toInt := by
      refine toInt_word_sub_sub ?_ ?_ ?_ ?_ <;> rw [toInt_intMin] <;> omega
    rw [if_neg (mt zero_sle_iff.1 hposi)]
    refine .of_refused hex (by simp [BitVec.toInt_add, add_assoc]) ?_
    rw [BitVec.slt_iff_toInt_lt, hbd]
    omega

theorem trySubtractInPlace_spec (lhs rhs : HugeInt) :
    InPlace lhs (lhs.toInt - rhs.toInt) (trySubtractInPlace lhs rhs) := by
  obtain ⟨borrow, hborrow, hnn, hle, hlow⟩ := borrow_spec lhs.lower rhs.lower
  have hl := lhs.upper.le_toInt
  have hl' := lhs.upper.toInt_lt
  have hr := rhs.upper.le_toInt
  have hr' := rhs.upper.toInt_lt
  have hex : lhs.toInt - rhs.toInt =
      (lhs.upper.toInt - rhs.upper.toInt - borrow.toInt) * 2 ^ 64 + (lhs.lower - rhs.lower).toNat := by
    rw [toInt, toInt]
    omega
  rw [trySubtractInPlace, hborrow]
  by_cases hposi : 0 ≤ rhs.upper.toInt
  · have hbd : (BitVec.intMin 64 + rhs.upper + borrow).toInt = -2 ^ 63 + rhs.upper.toInt + borrow.toInt := by
      refine toInt_word_add_add ?_ ?_ ?_ ?_ <;> rw [toInt_intMin] <;> omega
    rw [if_pos (zero_sle_iff.2 hposi)]
    refine .of_refused hex (by simp [BitVec.toInt_sub]) ?_
    rw [BitVec.slt_iff_toInt_lt, hbd]
    omega
  · have hbd : (BitVec.intMax 64 + rhs.upper + borrow).toInt = 2 ^ 63 - 1 + rhs.upper.toInt + borrow.toInt := by
      refine toInt_word_add_add ?_ ?_ ?_ ?_ <;> rw [toInt_intMax] <;> omega
    rw [if_neg (mt zero_sle_iff.1 hposi)]
    refine .of_refused hex (by simp [← sub_sub, BitVec.toInt_sub]) ?_
    rw [Bool.and_eq_true, BitVec.slt_iff_toInt_lt, BitVec.sle_iff_toInt_le, hbd, toInt_intMin]
    have hone : (1 : BitVec 64).toInt = 1 := rfl
    -- the minimum has no predecessor
    by_cases hmin : -2 ^ 63 < lhs.upper.toInt
    · rw [toInt_word_sub (by rw [hone]; omega) (by rw [hone]; omega), hone]
      omega
    · omega

end HugeInt

end WfOpt

import WfOpt.Lib.ByteStream

/-!
# Streams of bits

A number *has the bits* of a range of positions of a stream if these are its bits, the lowest one first, and it has
no others (`HasBits`, `HasBits.unique`). Numbers that are packed into words are read and written piece by piece: a
range is cut (`HasBits.take`, `HasBits.drop`), and adjacent ranges are combined by a shift (`HasBits.append`).

Numbers of the same width, one after another, are a stream (`packed`), and so are bytes (`testBit_ofLittleEndian`).
-/

namespace WfOpt

open Nat List

/-- The number has the `n` bits of a stream from a position on. -/
def HasBits (b : ℕ → Bool) (o n x : ℕ) : Prop := ∀ j, x.testBit j = (decide (j < n) && b (o + j))

namespace HasBits

variable {b : ℕ → Bool} {o n m x y : ℕ}

theorem unique (hx : HasBits b o n x) (hy : HasBits b o n y) : x = y :=
  eq_of_testBit_eq fun j => (hx j).trans (hy j).symm

theorem lt_two_pow (hx : HasBits b o n x) : x < 2 ^ n := by
  refine lt_pow_two_of_testBit x fun j hj => ?_
  rw [hx, decide_eq_false (not_lt.2 hj), Bool.false_and]

/-- The bits that are cut off are not there. -/
theorem take (hx : HasBits b o n x) (h : m ≤ n) : HasBits b o m (x % 2 ^ m) := by
  intro j
  rw [testBit_mod_two_pow, hx]
  by_cases hj : j < m
  · rw [decide_eq_true hj, decide_eq_true (hj.trans_le h), Bool.true_and]
  · rw [decide_eq_false hj, Bool.false_and, Bool.false_and]

theorem mod_eq_self (hx : HasBits b o n x) (h : n ≤ m) : x % 2 ^ m = x :=
  mod_eq_of_lt (hx.lt_two_pow.trans_le (Nat.pow_le_pow_right Nat.two_pos h))

/-- The lower bits are shifted out. -/
theorem drop (hx : HasBits b o n x) (s : ℕ) : HasBits b (o + s) (n - s) (x >>> s) := by
  intro j
  rw [testBit_shiftRight, hx, Nat.add_assoc]
  refine congrArg (· && _) (decide_eq_decide.2 ?_)
  omega

/-- The bits of a range are followed by those of the next one. -/
theorem append (hx : HasBits b o n x) (hy : HasBits b (o + n) m y) : HasBits b o (n + m) (x ||| y <<< n) := by
  intro j
  rw [testBit_or, testBit_shiftLeft, hx, hy]
  by_cases hj : j < n
  · rw [decide_eq_true hj, decide_eq_false (not_le.2 hj), decide_eq_true (hj.trans_le (Nat.le_add_right n m)),
      Bool.false_and, Bool.or_false]
  · obtain ⟨k, rfl⟩ := Nat.exists_eq_add_of_le (not_lt.1 hj)
    have hlt : n + k < n + m ↔ k < m := Nat.add_lt_add_iff_left
    rw [decide_eq_false hj, decide_eq_true (Nat.le_add_right n k), Nat.add_sub_cancel_left,
      decide_eq_decide.2 hlt, Bool.false_and, Bool.false_or, Bool.true_and, Nat.add_assoc]

/-- The number modulo a power of two has the bits if its lower ones are those of the range. -/
theorem mod_iff : HasBits b o n (x % 2 ^ n) ↔ ∀ j < n, x.testBit j = b (o + j) := by
  refine forall_congr' fun j => ?_
  rw [testBit_mod_two_pow]
  by_cases hj : j < n
  · rw [decide_eq_true hj, Bool.true_and, Bool.true_and]
    exact ⟨fun h _ => h, fun h => h hj⟩
  · rw [decide_eq_false hj, Bool.false_and, Bool.false_and]
    exact iff_of_true rfl fun h => absurd h hj

/-- Bits in the middle of a number, of which those above are not known. -/
theorem drop_mod (hx : HasBits b o n (x % 2 ^ n)) {s : ℕ} (h : s + m ≤ n) :
    HasBits b (o + s) m (x >>> s % 2 ^ m) := by
  refine mod_iff.2 fun j hj => ?_
  rw [testBit_shiftRight, mod_iff.1 hx _ (by omega), Nat.add_assoc]

/-- A range is filled up with the lower bits of a number. -/
theorem append_mod (hx : HasBits b o n x) (hy : HasBits b (o + n) m (y % 2 ^ m)) {k : ℕ} (h : k ≤ n + m) :
    HasBits b o k ((x ||| y <<< n) % 2 ^ k) := by
  refine mod_iff.2 fun j hj => ?_
  rw [testBit_or, testBit_shiftLeft, hx]
  by_cases hjn : j < n
  · rw [decide_eq_true hjn, decide_eq_false (not_le.2 hjn), Bool.true_and, Bool.false_and, Bool.or_false]
  · obtain ⟨i, rfl⟩ := Nat.exists_eq_add_of_le (not_lt.1 hjn)
    rw [decide_eq_false hjn, decide_eq_true (Nat.le_add_right n i), Nat.add_sub_cancel_left,
      Bool.false_and, Bool.false_or, Bool.true_and, mod_iff.1 hy i (by omega), Nat.add_assoc]

end HasBits

/-- The stream of numbers that have `w` bits each. -/
def packed (w : ℕ) (v : ℕ → ℕ) (t : ℕ) : Bool := (v (t / w)).testBit (t % w)

/-- Each of the numbers has its bits in the stream, without those beyond the width. -/
theorem hasBits_packed (w : ℕ) (v : ℕ → ℕ) (k : ℕ) : HasBits (packed w v) (w * k) w (v k % 2 ^ w) := by
  intro j
  rw [testBit_mod_two_pow]
  by_cases hj : j < w
  · rw [packed, mul_add_div (zero_lt_of_lt hj), div_eq_of_lt hj, Nat.add_zero,
      mul_add_mod_self_left, mod_eq_of_lt hj]
  · rw [decide_eq_false hj, Bool.false_and, Bool.false_and]

/-! ## Bytes -/

theorem getLsbD_byte {byte k : ℕ} (hby : byte < 8) (hk : k < 64) :
    (0xFF#64 <<< (8 * byte)).getLsbD k = decide (k / 8 = byte) := by
  have h : ∀ byte : Fin 8, ∀ k : Fin 64,
      (0xFF#64 <<< (8 * byte.1)).getLsbD k = decide (k.1 / 8 = byte.1) := by decide
  exact h ⟨byte, hby⟩ ⟨k, hk⟩

theorem testBit_ofLittleEndian (l : List UInt8) (k : ℕ) :
    (ofLittleEndian l).testBit k = (l.getD (k / 8) 0).toNat.testBit (k % 8) := by
  induction l generalizing k with
  | nil => rw [ofLittleEndian, zero_testBit, getD_nil]; exact (zero_testBit _).symm
  | cons b l ih =>
    rw [ofLittleEndian, Nat.add_comm, show 256 = 2 ^ 8 from rfl, testBit_two_pow_mul_add _ b.toNat_lt]
    by_cases hk : k < 8
    · rw [if_pos hk, div_eq_of_lt hk, mod_eq_of_lt hk, getD_cons_zero]
    · obtain ⟨i, rfl⟩ := Nat.exists_eq_add_of_le (not_lt.1 hk)
      rw [if_neg hk, Nat.add_sub_cancel_left, ih, add_mod_left, Nat.add_comm 8 i,
        add_div_right i (by decide : 0 < 8), getD_cons_succ]

end WfOpt

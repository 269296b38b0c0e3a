import WfOpt.Lib.BitStream

/-!
# Byte order

Words are stored with their lowest byte first. `BSwap` reverses the bytes of a word
(`bSwap_ofBytes`), so that numbers compare as the bytes that were stored.
-/

namespace WfOpt

open List

/-- `BSwap`, for `uint64_t` -/
def bSwap (x : BitVec 64) : BitVec 64 :=
  (x &&& 0xff00000000000000#64) >>> 56 ||| (x &&& 0x00ff000000000000#64) >>> 40 |||
    (x &&& 0x0000ff0000000000#64) >>> 24 ||| (x &&& 0x000000ff00000000#64) >>> 8 |||
    (x &&& 0x00000000ff000000#64) <<< 8 ||| (x &&& 0x0000000000ff0000#64) <<< 24 |||
    (x &&& 0x000000000000ff00#64) <<< 40 ||| (x &&& 0x00000000000000ff#64) <<< 56

/-- An upper byte that is moved down ends in the mirrored position. -/
theorem getLsbD_shiftRight_byte (x : BitVec 64) {byte s k : ℕ} (hbyte : byte < 8) (hs : s + 56 = 16 * byte) :
    ((x &&& 0xFF#64 <<< (8 * byte)) >>> s).getLsbD k =
      (decide (k / 8 = 7 - byte) && x.getLsbD (8 * byte + k % 8)) := by
  rw [BitVec.getLsbD_ushiftRight, BitVec.getLsbD_and]
  by_cases hk : k / 8 = 7 - byte
  · rw [decide_eq_true hk, Bool.true_and, getLsbD_byte hbyte (by omega), decide_eq_true (by omega), Bool.and_true]
    exact congrArg x.getLsbD (by omega)
  · rw [decide_eq_false hk, Bool.false_and]
    by_cases hlt : s + k < 64
    · rw [getLsbD_byte hbyte hlt, decide_eq_false (by omega), Bool.and_false]
    · rw [BitVec.getLsbD_of_ge x _ (not_lt.1 hlt), Bool.false_and]

/-- So does a lower byte that is moved up. -/
theorem getLsbD_shiftLeft_byte (x : BitVec 64) {byte s k : ℕ} (hk : k < 64) (hs : s + 16 * byte = 56) :
    ((x &&& 0xFF#64 <<< (8 * byte)) <<< s).getLsbD k =
      (decide (k / 8 = 7 - byte) && x.getLsbD (8 * byte + k % 8)) := by
  rw [BitVec.getLsbD_shiftLeft, BitVec.getLsbD_and, decide_eq_true hk, Bool.true_and,
    getLsbD_byte (by omega) (by omega)]
  by_cases hbyte : k / 8 = 7 - byte
  · rw [decide_eq_true hbyte, decide_eq_false (by omega), decide_eq_true (by omega), Bool.and_true, Bool.true_and]
    exact congrArg x.getLsbD (by omega)
  · rw [decide_eq_false hbyte, Bool.false_and]
    by_cases hlt : k < s
    · rw [decide_eq_true hlt, Bool.not_true, Bool.false_and]
    · rw [decide_eq_false (show ¬(k - s) / 8 = byte by omega), Bool.and_false, Bool.and_false]

theorem getLsbD_bSwap (x : BitVec 64) {k : ℕ} (hk : k < 64) :
    (bSwap x).getLsbD k = x.getLsbD (8 * (7 - k / 8) + k % 8) := by
  have hmasks : bSwap x = (x &&& 0xFF#64 <<< (8 * 7)) >>> 56 ||| (x &&& 0xFF#64 <<< (8 * 6)) >>> 40 |||
      (x &&& 0xFF#64 <<< (8 * 5)) >>> 24 ||| (x &&& 0xFF#64 <<< (8 * 4)) >>> 8 |||
      (x &&& 0xFF#64 <<< (8 * 3)) <<< 8 ||| (x &&& 0xFF#64 <<< (8 * 2)) <<< 24 |||
      (x &&& 0xFF#64 <<< (8 * 1)) <<< 40 ||| (x &&& 0xFF#64 <<< (8 * 0)) <<< 56 := rfl
  rw [hmasks, BitVec.getLsbD_or, BitVec.getLsbD_or, BitVec.getLsbD_or, BitVec.getLsbD_or, BitVec.getLsbD_or,
    BitVec.getLsbD_or, BitVec.getLsbD_or, getLsbD_shiftRight_byte x (by decide) (by decide),
    getLsbD_shiftRight_byte x (by decide) (by decide), getLsbD_shiftRight_byte x (by decide) (by decide),
    getLsbD_shiftRight_byte x (by decide) (by decide), getLsbD_shiftLeft_byte x hk (by decide),
    getLsbD_shiftLeft_byte x hk (by decide), getLsbD_shiftLeft_byte x hk (by decide),
    getLsbD_shiftLeft_byte x hk (by decide)]
  -- each byte of the result is that of one of the terms
  have hbyte : k / 8 < 8 := (Nat.div_lt_iff_lt_mul (by decide)).2 hk
  generalize k / 8 = byte at *
  interval_cases byte <;> simp

/-- The word that is stored as these bytes. -/
def wordOfBytes (l : List UInt8) : BitVec 64 := BitVec.ofNat 64 (ofLittleEndian l)

theorem getLsbD_wordOfBytes (l : List UInt8) {k : ℕ} (hk : k < 64) :
    (wordOfBytes l).getLsbD k = (l.getD (k / 8) 0).toNat.testBit (k % 8) := by
  rw [wordOfBytes, BitVec.getLsbD_ofNat, decide_eq_true hk, Bool.true_and, testBit_ofLittleEndian]

theorem bSwap_wordOfBytes {l : List UInt8} (hl : l.length = 8) : bSwap (wordOfBytes l) = wordOfBytes l.reverse := by
  refine BitVec.eq_of_getLsbD_eq fun k hk => ?_
  rw [getLsbD_bSwap _ hk, getLsbD_wordOfBytes _ (by omega), getLsbD_wordOfBytes _ hk,
    Nat.mul_add_div (by decide), Nat.mul_add_mod_self_left, Nat.mod_mod,
    Nat.div_eq_of_lt (Nat.mod_lt _ (by decide)), Nat.add_zero, getD_eq_getElem _ _ (by omega),
    getD_eq_getElem _ _ (by rw [length_reverse]; omega), getElem_reverse]
  simp only [hl]

theorem bSwap_bSwap (x : BitVec 64) : bSwap (bSwap x) = x := by
  refine BitVec.eq_of_getLsbD_eq fun k hk => ?_
  rw [getLsbD_bSwap _ hk, getLsbD_bSwap _ (by omega)]
  exact congrArg x.getLsbD (by omega)

end WfOpt

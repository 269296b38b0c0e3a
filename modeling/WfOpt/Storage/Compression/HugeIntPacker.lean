import WfOpt.Common.UHugeInt
import WfOpt.Lib.BitStream

/-!
# Packing of 128-bit values

A block of 32 values is written with `width` bits for each one, right behind each other, to words of 32 bits
(`HugeIntPacker`), of which a value may reach over up to five. Multiples of a word have functions of their own.
The words are a stream of bits. What has been written does not depend on what the words have been before
(`Written`), and a value is read from there (`unpack_pack`).
-/

namespace WfOpt

open Nat Function List

namespace HugeIntPacker

open UHugeInt (ofUInt32)

/-! ## Packing -/

/-- The words, and the one at which the output pointer is. -/
structure PackState where
  out : ℕ → BitVec 32
  pos : ℕ

namespace PackState

variable (s : PackState)

/-- A word from the pointer on is assigned. -/
def write (i : ℕ) (word : BitVec 32) : PackState := { s with out := update s.out (s.pos + i) word }

def advance (n : ℕ) : PackState := { s with pos := s.pos + n }

/-- The first word, to whose lower bits the value is added, unless there are none. -/
def writeFirst (shl : ℕ) (aligned shifted : UHugeInt) : PackState := if shl = 0 then s.write 0 aligned.toUInt32
  else s.write 0 (s.out s.pos ||| (shifted <<< shl).toUInt32)

/-- The words `1 .. n` of a value. -/
def writeWords (value : UHugeInt) (shl : ℕ) : ℕ → PackState
  | 0 => s
  | c + 1 => (writeWords value shl c).write (c + 1) (value >>> (32 * (c + 1) - shl)).toUInt32

/-- A value ends behind the words `0 .. n`, or in the next one. -/
def writeLast (value : UHugeInt) (delta shl n : ℕ) : PackState := let s := s.advance (n + 1)
  if delta + shl > 32 * (n + 1) then s.write 0 (value >>> (32 * (n + 1) - shl)).toUInt32 else s

end PackState

/-- `PackSingle` -/
def packSingle (value : UHugeInt) (s : PackState) (delta shl : ℕ) (mask : UHugeInt) : PackState :=
  let masked := value &&& mask
  if delta + shl < 32 then s.writeFirst shl masked masked
  else if delta + shl < 64 then (s.writeFirst shl masked masked).writeLast masked delta shl 0
  else if delta + shl < 96 then
    ((s.writeFirst shl masked value).writeWords masked shl 1).writeLast masked delta shl 1
  else if delta + shl < 128 then
    ((s.writeFirst shl masked value).writeWords masked shl 2).writeLast masked delta shl 2
  else
    ((s.write 0 (s.out s.pos ||| (value <<< shl).toUInt32)).writeWords masked shl 3).writeLast
      masked delta shl 3

/-- `PackLast` -/
def packLast (inp : ℕ → UHugeInt) (s : PackState) (delta : ℕ) : PackState := let shift := delta * 31 % 32
  let s := s.write 0 (s.out s.pos ||| (inp 31 <<< shift).toUInt32)
  let s := if delta > 32 then s.write 1 (inp 31 >>> (32 - shift)).toUInt32 else s
  let s := if delta > 64 then s.write 2 (inp 31 >>> (64 - shift)).toUInt32 else s
  if delta > 96 then s.write 3 (inp 31 >>> (96 - shift)).toUInt32 else s

/-- The first `n` words of a value. -/
def packWords (value : UHugeInt) (offset : ℕ) (out : ℕ → BitVec 32) : ℕ → ℕ → BitVec 32
  | 0 => out
  | c + 1 => update (packWords value offset out c) (offset + c) (value >>> (32 * c)).toUInt32

/-- The values take `n` words each. -/
def packDelta (n : ℕ) (inp : ℕ → UHugeInt) (out : ℕ → BitVec 32) : ℕ → BitVec 32 :=
  (range 32).foldl (fun out i => packWords (inp i) (n * i) out n) out

/-- `PackDelta32` -/
def packDelta32 := packDelta 1

/-- `PackDelta64` -/
def packDelta64 := packDelta 2

/-- `PackDelta96` -/
def packDelta96 := packDelta 3

/-- `PackDelta128` -/
def packDelta128 := packDelta 4

/-- The loop of `Pack`, for the first `n` values. -/
def packLoop (inp : ℕ → UHugeInt) (out : ℕ → BitVec 32) (width n : ℕ) : PackState := (range n).foldl (fun s oindex =>
    packSingle (inp oindex) s width (width * oindex % 32) (((1 : UHugeInt) <<< width) - 1)) ⟨out, 0⟩

/-- `HugeIntPacker::Pack` -/
def pack (inp : ℕ → UHugeInt) (out : ℕ → BitVec 32) (width : ℕ) : ℕ → BitVec 32 := if width = 0 then out
  else if width = 32 then packDelta32 inp out
  else if width = 64 then packDelta64 inp out
  else if width = 96 then packDelta96 inp out
  else if width = 128 then packDelta128 inp out
  else (packLast inp (packLoop inp out width 31) width).out

/-! ## Unpacking -/

/-- The words `0 .. n` from a position on, without the lower bits of the first one. -/
def unpackWords (words : ℕ → BitVec 32) (pos shr : ℕ) : ℕ → UHugeInt
  | 0 => ofUInt32 (words pos) >>> shr
  | c + 1 => unpackWords words pos shr c ||| ofUInt32 (words (pos + (c + 1))) <<< (32 * (c + 1) - shr)

/-- A value ends behind the words `0 .. n`, or in the next one: the value, and the next word. -/
def unpackAcross (words : ℕ → BitVec 32) (pos delta shr n : ℕ) : UHugeInt × ℕ :=
  let value := unpackWords words pos shr n
  (if delta + shr > 32 * (n + 1) then
    value ||| ofUInt32 (words (pos + (n + 1)) % ((1 : BitVec 32) <<< (delta + shr - 32 * (n + 1)))) <<<
      (32 * (n + 1) - shr)
  else value, pos + (n + 1))

/-- `UnpackSingle` -/
def unpackSingle (words : ℕ → BitVec 32) (pos delta shr : ℕ) : UHugeInt × ℕ :=
  if delta + shr < 32 then ((ofUInt32 (words pos) >>> shr) % ((1 : UHugeInt) <<< delta), pos)
  else if delta + shr < 64 then unpackAcross words pos delta shr 0
  else if delta + shr < 96 then unpackAcross words pos delta shr 1
  else if delta + shr < 128 then unpackAcross words pos delta shr 2
  else unpackAcross words pos delta shr 3

/-- `UnpackLast` -/
def unpackLast (words : ℕ → BitVec 32) (pos delta : ℕ) : UHugeInt := let shift := delta * 31 % 32
  let value := ofUInt32 (words pos >>> shift)
  let value := if delta > 32 then value ||| ofUInt32 (words (pos + 1)) <<< (32 - shift) else value
  let value := if delta > 64 then value ||| ofUInt32 (words (pos + 2)) <<< (64 - shift) else value
  if delta > 96 then value ||| ofUInt32 (words (pos + 3)) <<< (96 - shift) else value

/-- `UnpackDelta0` -/
def unpackDelta0 (out : ℕ → UHugeInt) : ℕ → UHugeInt := (range 32).foldl (fun out i => update out i 0) out

/-- The values take `n + 1` words each. -/
def unpackDelta (n : ℕ) (words : ℕ → BitVec 32) (out : ℕ → UHugeInt) : ℕ → UHugeInt :=
  (range 32).foldl (fun out i => update out i (unpackWords words ((n + 1) * i) 0 n)) out

/-- `UnpackDelta32` -/
def unpackDelta32 := unpackDelta 0

/-- `UnpackDelta64` -/
def unpackDelta64 := unpackDelta 1

/-- `UnpackDelta96` -/
def unpackDelta96 := unpackDelta 2

/-- `UnpackDelta128` -/
def unpackDelta128 := unpackDelta 3

/-- The loop of `Unpack`, for the first `n` values: the values, and the next word. -/
def unpackLoop (words : ℕ → BitVec 32) (out : ℕ → UHugeInt) (width n : ℕ) : (ℕ → UHugeInt) × ℕ :=
  (range n).foldl (fun s oindex =>
    let single := unpackSingle words s.2 width (width * oindex % 32)
    (update s.1 oindex single.1, single.2)) (out, 0)

/-- `HugeIntPacker::Unpack` -/
def unpack (words : ℕ → BitVec 32) (out : ℕ → UHugeInt) (width : ℕ) : ℕ → UHugeInt :=
  if width = 0 then unpackDelta0 out
  else if width = 32 then unpackDelta32 words out
  else if width = 64 then unpackDelta64 words out
  else if width = 96 then unpackDelta96 words out
  else if width = 128 then unpackDelta128 words out
  else
    let s := unpackLoop words out width 31
    update s.1 31 (unpackLast words s.2 width)

/-! ## What is written -/

variable {b : ℕ → Bool} {o n : ℕ} {value masked : UHugeInt}

/-- The lower bits of a value, without those beyond the mask. -/
theorem toNat_masked {delta : ℕ} (h : delta < 128) (value : UHugeInt) :
    (value &&& (((1 : UHugeInt) <<< delta) - 1)).toNat = value.toNat % 2 ^ delta := by
  have hpow : 2 ^ delta < 2 ^ 128 := Nat.pow_lt_pow_right (by decide) h
  have hsh : ((1 : UHugeInt) <<< delta).toNat = 2 ^ delta := by
    rw [UHugeInt.toNat_shiftLeft, UHugeInt.toNat_one, one_shiftLeft, mod_eq_of_lt hpow]
  have hone : (1 : UHugeInt).toNat ≤ ((1 : UHugeInt) <<< delta).toNat := by
    rw [hsh, UHugeInt.toNat_one]
    exact Nat.one_le_two_pow
  rw [UHugeInt.toNat_and, UHugeInt.toNat_sub hone, hsh, UHugeInt.toNat_one, and_two_pow_sub_one_eq_mod]

theorem toNat_fill (word : BitVec 32) (value : UHugeInt) (shl : ℕ) :
    (word ||| (value <<< shl).toUInt32).toNat = (word.toNat ||| value.toNat <<< shl) % 2 ^ 32 := by
  have hdvd : 2 ^ 32 ∣ 2 ^ 128 := Nat.pow_dvd_pow 2 (by decide)
  rw [BitVec.toNat_or, UHugeInt.toNat_toUInt32, UHugeInt.toNat_shiftLeft, mod_mod_of_dvd _ hdvd,
    or_mod_two_pow, mod_eq_of_lt word.isLt]

/-- The words up to a position of the stream have its bits, and those from there on are as before. -/
structure Written (b : ℕ → Bool) (out : ℕ → BitVec 32) (t : ℕ) (out' : ℕ → BitVec 32) : Prop where
  bits : ∀ c, 32 * c < t → HasBits b (32 * c) (min 32 (t - 32 * c)) (out' c).toNat
  frame : ∀ c, t ≤ 32 * c → out' c = out c

variable {out out' : ℕ → BitVec 32} {t t' delta shl : ℕ} {s : PackState}

theorem written_zero (b : ℕ → Bool) (out : ℕ → BitVec 32) : Written b out 0 out where
  bits _ hc := absurd hc (Nat.not_lt_zero _)
  frame _ _ := rfl

namespace Written

theorem update (h : Written b out t out') {c : ℕ} {word : BitVec 32} (hle : 32 * c ≤ t)
    (ht : t ≤ 32 * c + n) (hpos : 0 < n) (hn : n ≤ 32) (hword : HasBits b (32 * c) n word.toNat)
    (ht' : 32 * c + n = t') : Written b out t' (update out' c word) where
  bits c' hc' := by
    subst ht'
    rcases Nat.lt_or_ge c' c with hlt | hge
    · have hfull : min 32 (32 * c + n - 32 * c') = min 32 (t - 32 * c') := by omega
      rw [update_of_ne hlt.ne, hfull]
      exact h.bits c' (by omega)
    · obtain rfl : c' = c := by omega
      rw [update_self, Nat.add_sub_cancel_left, min_eq_right hn]
      exact hword
  frame c' hc' := by
    rw [update_of_ne (by omega)]
    exact h.frame c' (by omega)

/-- The word at the pointer is filled up. -/
theorem writeFirst {aligned shifted : UHugeInt} (h : Written b out (32 * s.pos + shl) s.out)
    (hshl : shl < 32) (hdlt : 0 < delta) (halig : HasBits b (32 * s.pos + shl) delta aligned.toNat)
    (hshifted : HasBits b (32 * s.pos + shl) delta (shifted.toNat % 2 ^ delta))
    (hsm : shl + delta < 32 → shifted.toNat < 2 ^ delta) :
    Written b out (32 * s.pos + min 32 (shl + delta)) (s.writeFirst shl aligned shifted).out := by
  rw [PackState.writeFirst]
  by_cases hz : shl = 0
  · subst hz
    refine h.update (Nat.le_add_right _ _) (by omega) (by omega) (min_le_left _ _) ?_ rfl
    rw [UHugeInt.toNat_toUInt32, Nat.zero_add]
    rcases le_total 32 delta with hle | hle
    · rw [min_eq_left hle]
      exact halig.take hle
    · rw [min_eq_right hle, halig.mod_eq_self hle]
      exact halig
  · rw [if_neg hz]
    refine h.update (Nat.le_add_right _ _) (by omega) (by omega) (min_le_left _ _) ?_ rfl
    have hbits := h.bits s.pos (by omega)
    rw [Nat.add_sub_cancel_left, min_eq_right hshl.le] at hbits
    rw [toNat_fill]
    rcases le_or_gt 32 (shl + delta) with hle | hlt
    · rw [min_eq_left hle]
      exact hbits.append_mod hshifted hle
    · rw [mod_eq_of_lt (hsm hlt)] at hshifted
      have happ := hbits.append hshifted
      rw [min_eq_right hlt.le, happ.mod_eq_self hlt.le]
      exact happ

theorem writeWords (h : Written b out (32 * s.pos + 32) s.out)
    (hval : HasBits b (32 * s.pos + shl) delta (value.toNat % 2 ^ delta)) (hshl : shl < 32) :
    ∀ n, 32 * (n + 1) ≤ shl + delta → Written b out (32 * s.pos + 32 * (n + 1)) (s.writeWords value shl n).out ∧
        (s.writeWords value shl n).pos = s.pos
  | 0, _ => ⟨h, rfl⟩
  | n + 1, hn => by
    obtain ⟨hwr, hpos⟩ := writeWords h hval hshl n (by omega)
    refine ⟨?_, hpos⟩
    rw [PackState.writeWords, PackState.write, hpos]
    have hst : 32 * s.pos + shl + (32 * (n + 1) - shl) = 32 * (s.pos + (n + 1)) := by omega
    have hword := @HasBits.drop_mod b _ _ 32 _ hval (32 * (n + 1) - shl) (by omega)
    rw [hst, ← UHugeInt.toNat_shiftRight, ← UHugeInt.toNat_toUInt32] at hword
    exact hwr.update (by omega) (by omega) (by decide) le_rfl hword (by ring)

/-- The rest of a value, if any, is written to the word behind the last full one. -/
theorem writeLast (h : Written b out (32 * s.pos + 32 * (n + 1)) s.out)
    (hval : HasBits b (32 * s.pos + shl) delta value.toNat) (hshl : shl < 32)
    (hle : 32 * (n + 1) ≤ shl + delta) (hlt : shl + delta < 32 * (n + 2)) :
    Written b out (32 * s.pos + shl + delta) (s.writeLast value delta shl n).out ∧
      (s.writeLast value delta shl n).pos = s.pos + (n + 1) := by
  rw [PackState.writeLast]
  by_cases hrst : delta + shl > 32 * (n + 1)
  · rw [if_pos hrst]
    refine ⟨?_, rfl⟩
    have hst : 32 * s.pos + shl + (32 * (n + 1) - shl) = 32 * (s.pos + (n + 1)) := by omega
    have hword := hval.drop (32 * (n + 1) - shl)
    have hsm : delta - (32 * (n + 1) - shl) ≤ 32 := by omega
    rw [hst, ← hword.mod_eq_self hsm, ← UHugeInt.toNat_shiftRight, ← UHugeInt.toNat_toUInt32] at hword
    exact h.update (by dsimp only [PackState.advance]; omega) (by dsimp only [PackState.advance]; omega)
      (by omega) hsm hword (by dsimp only [PackState.advance]; omega)
  · rw [if_neg hrst]
    refine ⟨?_, rfl⟩
    have hend : 32 * s.pos + shl + delta = 32 * s.pos + 32 * (n + 1) := by omega
    rw [hend]
    exact h

/-- A value that does not end in its first word is written. -/
theorem across (h : Written b out (32 * s.pos + 32) s.out) {value : UHugeInt}
    (hval : HasBits b (32 * s.pos + shl) delta value.toNat) (hshl : shl < 32)
    (hle : 32 * (n + 1) ≤ shl + delta) (hlt : shl + delta < 32 * (n + 2)) :
    Written b out (32 * s.pos + shl + delta) ((s.writeWords value shl n).writeLast value delta shl n).out ∧
      ((s.writeWords value shl n).writeLast value delta shl n).pos = s.pos + (n + 1) := by
  have hmod := hval.take (le_refl delta)
  obtain ⟨hwr, hpos⟩ := h.writeWords hmod hshl n hle
  rw [← hpos] at hwr hval ⊢
  exact hwr.writeLast hval hshl hle hlt

end Written

/-- A value is written behind the ones before, whatever bits it has beyond the width. -/
theorem packSingle_spec (h : Written b out (32 * s.pos + shl) s.out) (hshl : shl < 32) (hdlt : 0 < delta)
    (hlt : delta < 128) {value : UHugeInt}
    (hval : HasBits b (32 * s.pos + shl) delta (value.toNat % 2 ^ delta)) :
    Written b out (32 * s.pos + shl + delta)
        (packSingle value s delta shl (((1 : UHugeInt) <<< delta) - 1)).out ∧
      (packSingle value s delta shl (((1 : UHugeInt) <<< delta) - 1)).pos = s.pos + (shl + delta) / 32 := by
  have hmasked : HasBits b (32 * s.pos + shl) delta (value &&& (((1 : UHugeInt) <<< delta) - 1)).toNat := by
    rw [toNat_masked hlt]
    exact hval
  rw [packSingle]
  generalize value &&& (((1 : UHugeInt) <<< delta) - 1) = masked at hmasked
  -- the first word
  have hfst : ∀ shifted : UHugeInt, HasBits b (32 * s.pos + shl) delta (shifted.toNat % 2 ^ delta) →
      (shl + delta < 32 → shifted.toNat < 2 ^ delta) →
      Written b out (32 * s.pos + min 32 (shl + delta)) (s.writeFirst shl masked shifted).out :=
    fun shifted => h.writeFirst hshl hdlt hmasked
  have hpos : ∀ shifted, (s.writeFirst shl masked shifted).pos = s.pos := fun shifted => by
    rw [PackState.writeFirst]
    split_ifs <;> rfl
  by_cases h32 : delta + shl < 32
  · rw [if_pos h32]
    constructor
    · have hend : 32 * s.pos + shl + delta = 32 * s.pos + min 32 (shl + delta) := by omega
      rw [hend]
      exact hfst masked (hmasked.take le_rfl) fun _ => hmasked.lt_two_pow
    · rw [hpos]
      omega
  rw [if_neg h32]
  have hmin : min 32 (shl + delta) = 32 := by omega
  rw [hmin] at hfst
  have hacross : ∀ shifted n, Written b out (32 * s.pos + 32) (s.writeFirst shl masked shifted).out →
      32 * (n + 1) ≤ shl + delta → shl + delta < 32 * (n + 2) →
      Written b out (32 * s.pos + shl + delta)
          (((s.writeFirst shl masked shifted).writeWords masked shl n).writeLast masked delta shl n).out ∧
        (((s.writeFirst shl masked shifted).writeWords masked shl n).writeLast masked delta shl n).pos =
          s.pos + (shl + delta) / 32 := by
    intro shifted n hwr hle hlt'
    have hdiv : (shl + delta) / 32 = n + 1 := by omega
    rw [← hpos shifted] at hwr
    have hacross := hwr.across (by rw [hpos]; exact hmasked) hshl hle hlt'
    rw [hpos] at hacross
    rw [hdiv]
    exact hacross
  by_cases h64 : delta + shl < 64
  · rw [if_pos h64]
    exact hacross masked 0 (hfst masked (hmasked.take le_rfl) (by omega)) (by omega) (by omega)
  rw [if_neg h64]
  have hvaluefirst := hfst value hval (by omega)
  by_cases h96 : delta + shl < 96
  · rw [if_pos h96]
    exact hacross value 1 hvaluefirst (by omega) (by omega)
  rw [if_neg h96]
  by_cases h128 : delta + shl < 128
  · rw [if_pos h128]
    exact hacross value 2 hvaluefirst (by omega) (by omega)
  · rw [if_neg h128]
    -- a value of less than 128 bits is not aligned here
    have hvalue3 := hacross value 3 hvaluefirst (by omega) (by omega)
    rw [PackState.writeFirst, if_neg (by omega)] at hvalue3
    exact hvalue3

/-- The stream of the values. -/
def stream (inp : ℕ → UHugeInt) (width : ℕ) : ℕ → Bool := packed width fun i => (inp i).toNat

theorem hasBits_stream (inp : ℕ → UHugeInt) (width i : ℕ) :
    HasBits (stream inp width) (width * i) width ((inp i).toNat % 2 ^ width) := hasBits_packed _ _ _

variable {inp : ℕ → UHugeInt} {width : ℕ}

theorem written_packLoop (inp : ℕ → UHugeInt) (out : ℕ → BitVec 32) (hwid : 0 < width) (hlt : width < 128) (n : ℕ) :
    Written (stream inp width) out (width * n) (packLoop inp out width n).out ∧
      (packLoop inp out width n).pos = width * n / 32 := by
  induction n with
  | zero => exact ⟨written_zero _ out, (Nat.zero_div 32).symm⟩
  | succ n ih =>
    obtain ⟨hwr, hpos⟩ := ih
    rw [packLoop, range_succ, foldl_append, ← packLoop, foldl_cons, foldl_nil]
    generalize packLoop inp out width n = s at hwr hpos
    have hspl : width * n = 32 * s.pos + width * n % 32 := by omega
    have hval := hasBits_stream inp width n
    rw [hspl] at hwr hval
    obtain ⟨hwr', hpos'⟩ := packSingle_spec hwr (mod_lt _ (by decide)) hwid hlt hval
    have hmul : width * (n + 1) = width * n + width := mul_succ width n
    rw [← hspl] at hwr'
    refine ⟨hwr', ?_⟩
    omega

/-- The last value ends with a word, so that bits beyond the width are not written. -/
theorem written_packLast {s : PackState} (hwr : Written (stream inp width) out (width * 31) s.out)
    (hpos : s.pos = width * 31 / 32) (hwid : width % 32 ≠ 0) (hlt : width < 128) :
    Written (stream inp width) out (width * 32) (packLast inp s width).out := by
  have hspl : width * 31 = 32 * s.pos + width * 31 % 32 := by omega
  have hval := hasBits_stream inp width 31
  have hsh : width * 31 % 32 = 32 - width % 32 := by omega
  rw [packLast]
  generalize width * 31 % 32 = shift at hspl hsh
  rw [hspl] at hwr hval
  have hfst : Written (stream inp width) out (32 * s.pos + 32)
      (s.write 0 (s.out s.pos ||| (inp 31 <<< shift).toUInt32)).out := by
    have hbits := hwr.bits s.pos (by omega)
    rw [Nat.add_sub_cancel_left, min_eq_right (by omega)] at hbits
    refine hwr.update (Nat.le_add_right _ _) (by omega) (by decide) le_rfl ?_ rfl
    rw [toNat_fill]
    exact hbits.append_mod hval (by omega)
  generalize hs : s.write 0 (s.out s.pos ||| (inp 31 <<< shift).toUInt32) = s₁ at hfst
  have hpos₁ : s₁.pos = s.pos := hs ▸ rfl
  rw [← hpos₁] at hfst hval
  have hwords := hfst.writeWords hval (by omega)
  have hend : ∀ n, 32 * (n + 1) = shift + width →
      Written (stream inp width) out (width * 32) (s₁.writeWords (inp 31) shift n).out := by
    intro n hn
    have hmul : width * 32 = 32 * s₁.pos + 32 * (n + 1) := by omega
    rw [hmul]
    exact (hwords n hn.le).1
  -- as many words follow as the width is above a multiple of a word
  by_cases h32 : width > 32
  · rw [if_pos h32]
    by_cases h64 : width > 64
    · rw [if_pos h64]
      by_cases h96 : width > 96
      · rw [if_pos h96]
        exact hend 3 (by omega)
      · rw [if_neg h96]
        exact hend 2 (by omega)
    · rw [if_neg h64, if_neg (by omega)]
      exact hend 1 (by omega)
  · rw [if_neg h32, if_neg (by omega), if_neg (by omega)]
    exact hend 0 (by omega)

theorem Written.packWords (h : Written b out (32 * o) out') (hval : HasBits b (32 * o) delta (value.toNat % 2 ^ delta)) :
    ∀ n, 32 * n ≤ delta → Written b out (32 * (o + n)) (packWords value o out' n)
  | 0, _ => h
  | n + 1, hn => by
    have hwr := packWords h hval n (by omega)
    have hword := hval.drop_mod (s := 32 * n) (m := 32) (by omega)
    rw [← Nat.mul_add, ← UHugeInt.toNat_shiftRight, ← UHugeInt.toNat_toUInt32] at hword
    exact hwr.update le_rfl (by omega) (by decide) le_rfl hword (by ring)

theorem written_packDelta (n : ℕ) (inp : ℕ → UHugeInt) (out : ℕ → BitVec 32) :
    Written (stream inp (32 * n)) out (32 * n * 32) (packDelta n inp out) := by
  have hloop : ∀ m, Written (stream inp (32 * n)) out (32 * (n * m))
      ((range m).foldl (fun out i => HugeIntPacker.packWords (inp i) (n * i) out n) out) := by
    intro m
    induction m with
    | zero => exact written_zero _ out
    | succ m ih =>
      rw [range_succ, foldl_append, foldl_cons, foldl_nil]
      have hval := hasBits_stream inp (32 * n) m
      rw [Nat.mul_assoc] at hval
      exact ih.packWords hval n le_rfl
  rw [Nat.mul_assoc]
  exact hloop 32

/-- The values are written to the first `width` words. -/
theorem written_pack (inp : ℕ → UHugeInt) (out : ℕ → BitVec 32) (hwid : width ≤ 128) :
    Written (stream inp width) out (width * 32) (pack inp out width) := by
  rw [pack]
  split_ifs with h0 h32 h64 h96 h128 <;> try subst width
  · exact written_zero _ out
  · exact written_packDelta 1 inp out
  · exact written_packDelta 2 inp out
  · exact written_packDelta 3 inp out
  · exact written_packDelta 4 inp out
  · have hpos : 0 < width := by omega
    obtain ⟨hwr, hpos⟩ := written_packLoop inp out hpos (by omega) 31
    exact written_packLast hwr hpos (by omega) (by omega)

/-! ## What is read -/

variable {words : ℕ → BitVec 32} {pos shr : ℕ}

/-- A piece is added behind the bits of a value. -/
theorem hasBits_or_shiftLeft {x y : UHugeInt} {m : ℕ} (hx : HasBits b o n x.toNat)
    (hy : HasBits b (o + n) m y.toNat) (hle : n + m ≤ 128) : HasBits b o (n + m) (x ||| y <<< n).toNat := by
  have happ := hx.append hy
  have hmod : (x.toNat ||| y.toNat <<< n) % 2 ^ 128 = x.toNat ||| y.toNat <<< n := happ.mod_eq_self hle
  rw [or_mod_two_pow, mod_eq_of_lt x.toNat_lt] at hmod
  rw [UHugeInt.toNat_or, UHugeInt.toNat_shiftLeft, hmod]
  exact happ

/-- The lower bits of a word. -/
theorem toNat_mod_shiftLeft (word : BitVec 32) {k : ℕ} (hk : k < 32) :
    (word % ((1 : BitVec 32) <<< k)).toNat = word.toNat % 2 ^ k := by
  have hpow : ((1 : BitVec 32) <<< k).toNat = 2 ^ k := by
    rw [BitVec.toNat_shiftLeft, shiftLeft_eq]
    exact (congrArg (· % 2 ^ 32) (Nat.one_mul _)).trans
      (mod_eq_of_lt (Nat.pow_lt_pow_right (by decide) hk))
  rw [BitVec.toNat_umod, hpow]

section Unpack

variable (hwords : ∀ c, 32 * c < t → HasBits b (32 * c) 32 (words c).toNat)
include hwords

theorem hasBits_unpackWords (pos : ℕ) (hshr : shr < 32) : ∀ n, 32 * (pos + n) < t → n < 4 →
    HasBits b (32 * pos + shr) (32 * (n + 1) - shr) (unpackWords words pos shr n).toNat
  | 0, hn, _ => by
    rw [unpackWords, UHugeInt.toNat_shiftRight, UHugeInt.toNat_ofUInt32]
    exact (hwords pos hn).drop shr
  | n + 1, hn, hlt => by
    have hrst := hasBits_unpackWords pos hshr n (by omega) (by omega)
    have hword := hwords (pos + (n + 1)) hn
    have hst : 32 * (pos + (n + 1)) = 32 * pos + shr + (32 * (n + 1) - shr) := by omega
    have hlen : 32 * (n + 1 + 1) - shr = 32 * (n + 1) - shr + 32 := by omega
    rw [hst, ← UHugeInt.toNat_ofUInt32] at hword
    rw [unpackWords, hlen]
    exact hasBits_or_shiftLeft hrst hword (by omega)

theorem unpackAcross_spec (pos : ℕ) (hshr : shr < 32) (hlt : delta < 128) (hle : 32 * (n + 1) ≤ delta + shr)
    (hlt' : delta + shr < 32 * (n + 2)) (ht : 32 * pos + shr + delta ≤ t) :
    HasBits b (32 * pos + shr) delta (unpackAcross words pos delta shr n).1.toNat ∧
      (unpackAcross words pos delta shr n).2 = pos + (delta + shr) / 32 := by
  have hdiv : (delta + shr) / 32 = n + 1 := by omega
  have hwhole := hasBits_unpackWords hwords pos hshr n (by omega) (by omega)
  rw [hdiv]
  refine ⟨?_, rfl⟩
  rw [unpackAcross]
  by_cases hrst : delta + shr > 32 * (n + 1)
  · rw [if_pos hrst]
    have hword := (hwords (pos + (n + 1)) (by omega)).take (m := delta + shr - 32 * (n + 1)) (by omega)
    have hst : 32 * (pos + (n + 1)) = 32 * pos + shr + (32 * (n + 1) - shr) := by omega
    have hlen : 32 * (n + 1) - shr + (delta + shr - 32 * (n + 1)) = delta := by omega
    rw [hst, ← toNat_mod_shiftLeft _ (by omega), ← UHugeInt.toNat_ofUInt32] at hword
    have hval := hasBits_or_shiftLeft hwhole hword (by omega)
    rw [hlen] at hval
    exact hval
  · rw [if_neg hrst]
    have hlen : delta = 32 * (n + 1) - shr := by omega
    rw [hlen]
    exact hwhole

/-- A value is read from where it was written. -/
theorem unpackSingle_spec (hshr : shr < 32) (hdlt : 0 < delta) (hlt : delta < 128)
    (ht : 32 * pos + shr + delta ≤ t) :
    HasBits b (32 * pos + shr) delta (unpackSingle words pos delta shr).1.toNat ∧
      (unpackSingle words pos delta shr).2 = pos + (delta + shr) / 32 := by
  rw [unpackSingle]
  by_cases h32 : delta + shr < 32
  · rw [if_pos h32]
    have hpow : ((1 : UHugeInt) <<< delta).toNat = 2 ^ delta := by
      rw [UHugeInt.toNat_shiftLeft, UHugeInt.toNat_one, one_shiftLeft,
        mod_eq_of_lt (Nat.pow_lt_pow_right (by decide) hlt)]
    have hbits := ((hwords pos (by omega)).drop shr).take (m := delta) (by omega)
    refine ⟨?_, by omega⟩
    rw [UHugeInt.toNat_mod (by rw [hpow]; exact Nat.two_pow_pos delta), hpow, UHugeInt.toNat_shiftRight,
      UHugeInt.toNat_ofUInt32]
    exact hbits
  rw [if_neg h32]
  have hacross := fun n => @unpackAcross_spec b n t delta words shr hwords pos hshr hlt
  by_cases h64 : delta + shr < 64
  · rw [if_pos h64]
    exact hacross 0 (by omega) (by omega) ht
  rw [if_neg h64]
  by_cases h96 : delta + shr < 96
  · rw [if_pos h96]
    exact hacross 1 (by omega) (by omega) ht
  rw [if_neg h96]
  by_cases h128 : delta + shr < 128
  · rw [if_pos h128]
    exact hacross 2 (by omega) (by omega) ht
  · rw [if_neg h128]
    exact hacross 3 (by omega) (by omega) ht

theorem unpackLast_spec (hpos : pos = width * 31 / 32) (hwid : width % 32 ≠ 0) (hlt : width < 128)
    (ht : width * 32 ≤ t) : HasBits b (width * 31) width (unpackLast words pos width).toNat := by
  have hspl : width * 31 = 32 * pos + width * 31 % 32 := by omega
  have hsh : width * 31 % 32 = 32 - width % 32 := by omega
  rw [unpackLast]
  generalize width * 31 % 32 = shift at hspl hsh
  rw [hspl]
  have hfst : ofUInt32 (words pos >>> shift) = ofUInt32 (words pos) >>> shift := by
    rw [← UHugeInt.toNat_inj, UHugeInt.toNat_ofUInt32, UHugeInt.toNat_shiftRight, UHugeInt.toNat_ofUInt32,
      BitVec.toNat_ushiftRight]
  rw [hfst]
  have hall : ∀ n, 32 * (n + 1) - shift = width → n < 4 →
      HasBits b (32 * pos + shift) width (unpackWords words pos shift n).toNat := by
    intro n hn hlt
    have hsh : shift < 32 := by omega
    have hbits := hasBits_unpackWords hwords pos hsh n (by omega) hlt
    rw [hn] at hbits
    exact hbits
  by_cases h32 : width > 32
  · rw [if_pos h32]
    by_cases h64 : width > 64
    · rw [if_pos h64]
      by_cases h96 : width > 96
      · rw [if_pos h96]
        exact hall 3 (by omega) (by omega)
      · rw [if_neg h96]
        exact hall 2 (by omega) (by omega)
    · rw [if_neg h64, if_neg (by omega)]
      exact hall 1 (by omega) (by omega)
  · rw [if_neg h32, if_neg (by omega), if_neg (by omega)]
    exact hall 0 (by omega) (by omega)

end Unpack

/-- The number that was packed is the one that has its bits. -/
theorem toNat_eq_of_hasBits {i : ℕ} (h : HasBits (stream inp width) (width * i) width value.toNat) :
    value.toNat = (inp i).toNat % 2 ^ width := h.unique (hasBits_stream inp width i)

theorem foldl_update_range (f : ℕ → UHugeInt) (out : ℕ → UHugeInt) (i : ℕ) : ∀ n,
    (range n).foldl (fun out i => update out i (f i)) out i = if i < n then f i else out i
  | 0 => rfl
  | n + 1 => by
    rw [range_succ, foldl_append, foldl_cons, foldl_nil]
    rcases Nat.lt_trichotomy i n with hlt | rfl | hlt
    · rw [update_of_ne hlt.ne, foldl_update_range f out i n, if_pos hlt, if_pos (by omega)]
    · rw [update_self, if_pos (Nat.lt_succ_self i)]
    · rw [update_of_ne hlt.ne', foldl_update_range f out i n, if_neg (by omega), if_neg (by omega)]

section Values

variable (hwords : ∀ c, c < width → HasBits (stream inp width) (32 * c) 32 (words c).toNat)
  (out : ℕ → UHugeInt)
include hwords

/-- The first `n` values are read. -/
theorem unpackLoop_spec (hwid : 0 < width) (hlt : width < 128) (n : ℕ) (hn : n < 32) :
    (∀ i < n, ((unpackLoop words out width n).1 i).toNat = (inp i).toNat % 2 ^ width) ∧
      (unpackLoop words out width n).2 = width * n / 32 := by
  induction n with
  | zero => exact ⟨fun i hi => absurd hi (Nat.not_lt_zero i), (Nat.zero_div 32).symm⟩
  | succ n ih =>
    obtain ⟨hvals, hpos⟩ := ih (by omega)
    rw [unpackLoop, range_succ, foldl_append, ← unpackLoop, foldl_cons, foldl_nil]
    dsimp only
    generalize unpackLoop words out width n = s at hvals hpos
    have hmul : width * (n + 1) = width * n + width := mul_succ width n
    have hle : width * (n + 1) ≤ width * 32 := Nat.mul_le_mul_left width hn.le
    have hspl : width * n = 32 * s.2 + width * n % 32 := by omega
    have hsing := @unpackSingle_spec (stream inp width) (width * 32) width words s.2 (width * n % 32)
      (fun c hc => hwords c (by omega)) (mod_lt _ (by decide)) hwid hlt (by omega)
    obtain ⟨hbits, hnx⟩ := hsing
    rw [← hspl] at hbits
    refine ⟨fun i hi => ?_, by omega⟩
    by_cases heq : i = n
    · rw [heq, update_self]
      exact toNat_eq_of_hasBits hbits
    · rw [update_of_ne heq]
      exact hvals i (by omega)

theorem unpackDelta_spec {m : ℕ} (hm : m < 4) (hwid : 32 * (m + 1) = width) (i : ℕ) (hi : i < 32) :
    (unpackDelta m words out i).toNat = (inp i).toNat % 2 ^ width := by
  have hle : (m + 1) * (i + 1) ≤ (m + 1) * 32 := Nat.mul_le_mul_left _ hi
  rw [mul_succ] at hle
  have hbits := @hasBits_unpackWords (stream inp width) (width * 32) words 0
    (fun c hc => hwords c (by omega)) ((m + 1) * i) (by decide) m (by omega) hm
  have hst : 32 * ((m + 1) * i) + 0 = width * i := by
    rw [← hwid]
    ring
  rw [hst, Nat.sub_zero, hwid] at hbits
  rw [unpackDelta, foldl_update_range, if_pos hi]
  exact toNat_eq_of_hasBits hbits

/-- The values are read from the first `width` words. -/
theorem unpack_spec (hwid : width ≤ 128) (i : ℕ) (hi : i < 32) :
    (unpack words out width i).toNat = (inp i).toNat % 2 ^ width := by
  rw [unpack]
  by_cases h0 : width = 0
  · rw [if_pos h0, unpackDelta0, foldl_update_range, if_pos hi, h0, pow_zero, mod_one]
    exact UHugeInt.toNat_zero
  rw [if_neg h0]
  by_cases h32 : width = 32
  · rw [if_pos h32]
    exact unpackDelta_spec hwords out (by decide) h32.symm i hi
  rw [if_neg h32]
  by_cases h64 : width = 64
  · rw [if_pos h64]
    exact unpackDelta_spec hwords out (by decide) h64.symm i hi
  rw [if_neg h64]
  by_cases h96 : width = 96
  · rw [if_pos h96]
    exact unpackDelta_spec hwords out (by decide) h96.symm i hi
  rw [if_neg h96]
  by_cases h128 : width = 128
  · rw [if_pos h128]
    exact unpackDelta_spec hwords out (by decide) h128.symm i hi
  rw [if_neg h128]
  have hpos : 0 < width := Nat.pos_of_ne_zero h0
  have hlt : width < 128 := by omega
  obtain ⟨hvals, hnx⟩ := unpackLoop_spec hwords out hpos hlt 31 (by decide)
  by_cases hlst : i = 31
  · rw [hlst, update_self]
    refine toNat_eq_of_hasBits (@unpackLast_spec (stream inp width) (width * 32) width words _
      (fun c hc => hwords c (by omega)) hnx (by omega) hlt le_rfl)
  · rw [update_of_ne hlst]
    exact hvals i (by omega)

end Values

/-- Each value is read back modulo `2 ^ width`, and just the first `width` words are written. -/
theorem unpack_pack {width : ℕ} (hwidth : width ≤ 128) (inp : ℕ → UHugeInt) (out : ℕ → BitVec 32) :
    (∀ words, (∀ c < width, words c = pack inp out width c) → ∀ (values : ℕ → UHugeInt), ∀ i < 32,
        (unpack words values width i).toNat = (inp i).toNat % 2 ^ width) ∧
      (∀ (out' : ℕ → BitVec 32), ∀ c < width, pack inp out' width c = pack inp out width c) ∧
      ∀ c, width ≤ c → pack inp out width c = out c := by
  have hwords : ∀ (out : ℕ → BitVec 32), ∀ c < width,
      HasBits (stream inp width) (32 * c) 32 (pack inp out width c).toNat := by
    intro out c hc
    have hbits := (written_pack inp out hwidth).bits c (by omega)
    rw [min_eq_left (by omega)] at hbits
    exact hbits
  refine ⟨fun words heq values i hi => ?_, fun out' c hc => ?_, fun c hc => ?_⟩
  · refine unpack_spec (fun c hc => ?_) values hwidth i hi
    rw [heq c hc]
    exact hwords out c hc
  · exact BitVec.eq_of_toNat_eq ((hwords out' c hc).unique (hwords out c hc))
  · exact (written_pack inp out hwidth).frame c (by omega)

/-- Values of all ones, with five bits of each. -/
theorem unpack_pack_ones :
    (∀ words, (∀ c < 5, words c = pack (fun _ => ⟨BitVec.allOnes 64, BitVec.allOnes 64⟩) (fun _ => 7) 5 c) →
      ∀ (values : ℕ → UHugeInt), ∀ i < 32, (unpack words values 5 i).toNat =
        (⟨BitVec.allOnes 64, BitVec.allOnes 64⟩ : UHugeInt).toNat % 2 ^ 5) ∧
      (∀ (out' : ℕ → BitVec 32), ∀ c < 5, pack (fun _ => ⟨BitVec.allOnes 64, BitVec.allOnes 64⟩) out' 5 c =
          pack (fun _ => ⟨BitVec.allOnes 64, BitVec.allOnes 64⟩) (fun _ => 7) 5 c) ∧
      ∀ c, 5 ≤ c → pack (fun _ => ⟨BitVec.allOnes 64, BitVec.allOnes 64⟩) (fun _ => 7) 5 c = 7 :=
  unpack_pack (by decide) _ _

end HugeIntPacker

end WfOpt

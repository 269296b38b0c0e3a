import WfOpt.Lib.Utf8

/-!
# The validation of strings

`Utf8Proc::Analyze` decodes the characters of a string, and finds bytes invalid that do not continue a character or
that give a code point that is not encoded as short as possible, too large or a surrogate. The bytes of a text are
valid (`stringIsValid_utf8Encode`), and a byte `0x80` or `0xC0` in the place of the last one is not
(`stringIsValid_append_eq_false`).
-/

namespace WfOpt

set_option maxRecDepth 10000

open List

/-- The loop of `UTF8ExtraByteLoop` -/
def utf8ExtraBytes : (nextraBytes utf8char : ℕ) → List UInt8 → Option (ℕ × List UInt8)
  | 0, utf8char, s => some (utf8char, s)
  | _ + 1, _, [] => none
  | nextraBytes + 1, utf8char, c :: s =>
    if c &&& 0xC0 ≠ 0x80 then none
    else utf8ExtraBytes nextraBytes (utf8char <<< 6 ||| (c &&& 0x3F).toNat) s

/-- `UTF8ExtraByteLoop`, with what is behind the character unless it is invalid -/
def utf8ExtraByteLoop (nextraBytes mask utf8char : ℕ) (s : List UInt8) : Option (List UInt8) :=
  match utf8ExtraBytes nextraBytes utf8char s with
  | none => none
  | some (utf8char, s) =>
    if utf8char &&& mask = 0 then none
    else if 0x10FFFF < utf8char then none
    else if utf8char &&& 0x1FFF800 = 0xD800 then none
    else some s

/-- One step of `Utf8Proc::Analyze` -/
def analyzeCharacter (c : UInt8) (s : List UInt8) : Option (List UInt8) := if c &&& 0x80 = 0 then some s
  else if c &&& 0xE0 = 0xC0 then utf8ExtraByteLoop 1 0x000780 (c &&& 0x1F).toNat s
  else if c &&& 0xF0 = 0xE0 then utf8ExtraByteLoop 2 0x00F800 (c &&& 0x0F).toNat s
  else if c &&& 0xF8 = 0xF0 then utf8ExtraByteLoop 3 0x1F0000 (c &&& 0x07).toNat s
  else none

variable {s t : List UInt8}

theorem length_le_of_utf8ExtraBytes {n u u' : ℕ} (h : utf8ExtraBytes n u s = some (u', t)) :
    t.length ≤ s.length := by
  induction n generalizing u s with
  | zero =>
    rw [utf8ExtraBytes, Option.some.injEq, Prod.mk.injEq] at h
    rw [h.2]
  | succ n ih =>
    cases s with
    | nil => exact nomatch h
    | cons c s =>
      rw [utf8ExtraBytes] at h
      split_ifs at h
      exact (ih h).trans (Nat.le_succ _)

theorem length_le_of_analyzeCharacter {c : UInt8} (h : analyzeCharacter c s = some t) : t.length ≤ s.length := by
  have hloop : ∀ n mask u, utf8ExtraByteLoop n mask u s = some t → t.length ≤ s.length := by
    intro n mask u h
    rw [utf8ExtraByteLoop] at h
    cases hbs : utf8ExtraBytes n u s with
    | none =>
      rw [hbs] at h
      exact nomatch h
    | some p =>
      rw [hbs] at h
      dsimp only at h
      split_ifs at h
      rw [Option.some.injEq] at h
      exact h ▸ length_le_of_utf8ExtraBytes hbs
  rw [analyzeCharacter] at h
  split_ifs at h
  · rw [Option.some.injEq] at h
    rw [h]
  iterate 3
    · exact hloop _ _ _ h

/-- `Value::StringIsValid`: `Utf8Proc::Analyze` does not find the string invalid. -/
def stringIsValid : List UInt8 → Bool
  | [] => true
  | c :: s =>
    match _h : analyzeCharacter c s with
    | none => false
    | some s => stringIsValid s
termination_by s => s.length
decreasing_by exact Nat.lt_succ_of_le (length_le_of_analyzeCharacter _h)

/-! ## Bits -/

theorem and_mask (x j k : ℕ) : x &&& ((2 ^ j - 1) * 2 ^ k) = x / 2 ^ k % 2 ^ j * 2 ^ k := by
  apply Nat.eq_of_testBit_eq
  intro i
  simp only [Nat.testBit_and, Nat.testBit_mul_two_pow, Nat.testBit_two_pow_sub_one, Nat.testBit_mod_two_pow,
    Nat.testBit_div_two_pow]
  by_cases hi : k ≤ i
  · simp [hi, Bool.and_comm]
  · simp [hi]

/-- What the bits of a byte tell. -/
theorem byte_class (c : UInt8) :
    (c &&& 0x80 = 0 ↔ c.toNat < 0x80) ∧ (c &&& 0xE0 = 0xC0 ↔ 0xC0 ≤ c.toNat ∧ c.toNat < 0xE0) ∧
      (c &&& 0xF0 = 0xE0 ↔ 0xE0 ≤ c.toNat ∧ c.toNat < 0xF0) ∧
      (c &&& 0xF8 = 0xF0 ↔ 0xF0 ≤ c.toNat ∧ c.toNat < 0xF8) ∧ (c &&& 0xC0 = 0x80 ↔ 0x80 ≤ c.toNat ∧ c.toNat < 0xC0) ∧
      (c &&& 0x1F).toNat = c.toNat % 0x20 ∧ (c &&& 0x0F).toNat = c.toNat % 0x10 ∧
      (c &&& 0x07).toNat = c.toNat % 0x08 ∧ (c &&& 0x3F).toNat = c.toNat % 0x40 := by
  revert c
  decide

/-- A continuation byte adds six bits. -/
theorem utf8ExtraBytes_cons {n u k : ℕ} (hk : k < 64) (s : List UInt8) :
    utf8ExtraBytes (n + 1) u (UInt8.ofNat (k + 128) :: s) = utf8ExtraBytes n (u * 64 + k) s := by
  obtain ⟨-, -, -, -, hcontn, -, -, -, hbits⟩ := byte_class (UInt8.ofNat (k + 128))
  rw [UInt8.toNat_ofNat'] at hcontn hbits
  rw [utf8ExtraBytes, if_neg (not_not.2 (hcontn.2 (by omega))), hbits, show (k + 128) % 2 ^ 8 % 0x40 = k by omega,
    ← Nat.shiftLeft_add_eq_or_of_lt (by omega : k < 2 ^ 6), Nat.shiftLeft_eq]

/-- A code point is valid if it needs all its bytes and is no surrogate. -/
theorem utf8ExtraByteLoop_eq_some {n j k u v : ℕ} (h : utf8ExtraBytes n u s = some (v, t))
    (hmask : v / 2 ^ k % 2 ^ j ≠ 0) (hvld : v.isValidChar) :
    utf8ExtraByteLoop n ((2 ^ j - 1) * 2 ^ k) u s = some t := by
  have hsurrogate : v &&& 0x1FFF800 ≠ 0xD800 := by
    rw [show 0x1FFF800 = (2 ^ 14 - 1) * 2 ^ 11 by rfl, and_mask]
    omega
  rw [utf8ExtraByteLoop, h]
  dsimp only
  rw [and_mask, if_neg (Nat.mul_ne_zero hmask (by simp)), if_neg (by omega), if_neg hsurrogate]

theorem analyzeCharacter_utf8EncodeChar (c : Char) (s : List UInt8) :
    ∃ b l, String.utf8EncodeChar c = b :: l ∧ analyzeCharacter b (l ++ s) = some s := by
  have hvld : c.val.toNat.isValidChar := c.valid
  unfold String.utf8EncodeChar
  dsimp only
  generalize c.val.toNat = v at hvld ⊢
  have hbd := hvld
  split_ifs
  · refine ⟨_, [], rfl, ?_⟩
    obtain ⟨hasc, -⟩ := byte_class (UInt8.ofNat v)
    rw [UInt8.toNat_ofNat'] at hasc
    rw [analyzeCharacter, if_pos (hasc.2 (by omega))]
    rfl
  · refine ⟨_, _, rfl, ?_⟩
    obtain ⟨hasc, htwo, -, -, -, hbits, -⟩ := byte_class (UInt8.ofNat (v / 64 % 32 + 192))
    rw [UInt8.toNat_ofNat'] at hasc htwo hbits
    rw [analyzeCharacter, if_neg (mt hasc.1 (by omega)), if_pos (htwo.2 (by omega)), hbits]
    refine utf8ExtraByteLoop_eq_some (j := 4) (k := 7) (v := v) ?_ (by omega) hvld
    rw [cons_append, utf8ExtraBytes_cons (by omega), utf8ExtraBytes]
    congr 2
    omega
  · refine ⟨_, _, rfl, ?_⟩
    obtain ⟨hasc, htwo, hthree, -, -, -, hbits, -⟩ := byte_class (UInt8.ofNat (v / 4096 % 16 + 224))
    rw [UInt8.toNat_ofNat'] at hasc htwo hthree hbits
    rw [analyzeCharacter, if_neg (mt hasc.1 (by omega)), if_neg (mt htwo.1 (by omega)),
      if_pos (hthree.2 (by omega)), hbits]
    refine utf8ExtraByteLoop_eq_some (j := 5) (k := 11) (v := v) ?_ (by omega) hvld
    rw [cons_append, cons_append, utf8ExtraBytes_cons (by omega), utf8ExtraBytes_cons (by omega), utf8ExtraBytes]
    congr 2
    omega
  · refine ⟨_, _, rfl, ?_⟩
    obtain ⟨hasc, htwo, hthree, hfour, -, -, -, hbits, -⟩ := byte_class (UInt8.ofNat (v / 262144 % 8 + 240))
    rw [UInt8.toNat_ofNat'] at hasc htwo hthree hfour hbits
    rw [analyzeCharacter, if_neg (mt hasc.1 (by omega)), if_neg (mt htwo.1 (by omega)),
      if_neg (mt hthree.1 (by omega)), if_pos (hfour.2 (by omega)), hbits]
    refine utf8ExtraByteLoop_eq_some (j := 5) (k := 16) (v := v) ?_ (by omega) hvld
    rw [cons_append, cons_append, cons_append, utf8ExtraBytes_cons (by omega),
      utf8ExtraBytes_cons (by omega), utf8ExtraBytes_cons (by omega), utf8ExtraBytes]
    congr 2
    omega

theorem stringIsValid_cons {c : UInt8} (h : analyzeCharacter c s = some t) :
    stringIsValid (c :: s) = stringIsValid t := by
  rw [stringIsValid]
  split
  next heq => exact nomatch h.symm.trans heq
  next heq =>
    rw [h, Option.some.injEq] at heq
    rw [heq]

theorem stringIsValid_cons_of_none {c : UInt8} {s : List UInt8} (h : analyzeCharacter c s = none) :
    stringIsValid (c :: s) = false := by
  rw [stringIsValid]
  split
  next => rfl
  next heq => exact nomatch h.symm.trans heq

/-- A text does not matter for what is behind it. -/
theorem stringIsValid_utf8Encode_append (l : List Char) (s : List UInt8) :
    stringIsValid (utf8Encode l ++ s) = stringIsValid s := by
  induction l with
  | nil => rfl
  | cons c l ih =>
    obtain ⟨b, bs, heq, h⟩ := analyzeCharacter_utf8EncodeChar c (utf8Encode l ++ s)
    rw [utf8Encode_cons, heq, append_assoc, cons_append, stringIsValid_cons h, ih]

theorem stringIsValid_utf8Encode (l : List Char) : stringIsValid (utf8Encode l) = true := by
  have h := stringIsValid_utf8Encode_append l []
  rw [append_nil] at h
  rw [h, stringIsValid]

/-- A character is not continued by a byte that starts one. -/
theorem utf8ExtraBytes_append_eq_none {n u v : ℕ} {m : List UInt8} {x y : UInt8}
    (h : utf8ExtraBytes n u (m ++ [x]) = some (v, [])) (hy : y &&& 0xC0 ≠ 0x80) :
    utf8ExtraBytes n u (m ++ [y]) = none := by
  induction m generalizing n u with
  | nil =>
    cases n with
    | zero => exact nomatch h
    | succ n => rw [nil_append, utf8ExtraBytes, if_pos hy]
  | cons c m ih =>
    cases n with
    | zero => exact nomatch h
    | succ n =>
      rw [cons_append, utf8ExtraBytes] at h ⊢
      split_ifs at h with hc
      rw [if_neg hc]
      exact ih h

theorem analyzeCharacter_append_eq_none {c : UInt8} {m : List UInt8} {x y : UInt8}
    (h : analyzeCharacter c (m ++ [x]) = some []) (hy : y &&& 0xC0 ≠ 0x80) : analyzeCharacter c (m ++ [y]) = none := by
  have hloop : ∀ n mask u, utf8ExtraByteLoop n mask u (m ++ [x]) = some [] →
      utf8ExtraByteLoop n mask u (m ++ [y]) = none := by
    intro n mask u h
    rw [utf8ExtraByteLoop] at h ⊢
    cases hbs : utf8ExtraBytes n u (m ++ [x]) with
    | none =>
      rw [hbs] at h
      exact nomatch h
    | some p =>
      rw [hbs] at h
      obtain ⟨v, t⟩ := p
      dsimp only at h
      split_ifs at h
      rw [Option.some.injEq] at h
      rw [utf8ExtraBytes_append_eq_none (h ▸ hbs) hy]
  rw [analyzeCharacter] at h ⊢
  split_ifs at h ⊢
  · simp at h
  iterate 3
    · exact hloop _ _ _ h

/-- The last byte of a text is incremented to another text, or else to a string that is not valid. -/
theorem stringIsValid_increment {text : List Char} {l : List UInt8} {b : UInt8} (h : utf8Encode text = l ++ [b]) :
    stringIsValid (l ++ [b + 1]) = true ↔ b ≠ 0x7F ∧ b ≠ 0xBF := by
  rcases eq_nil_or_concat' text with rfl | ⟨text, c, rfl⟩
  · exact absurd h.symm (append_ne_nil_of_right_ne_nil l (cons_ne_nil b []))
  obtain ⟨m, b', hc⟩ := (eq_nil_or_concat' (String.utf8EncodeChar c)).resolve_left (utf8EncodeChar_ne_nil c)
  have hspl : utf8Encode text ++ m = l ∧ [b'] = [b] := by
    refine append_inj' ?_ rfl
    rw [← h, utf8Encode_append, append_assoc, ← hc]
    exact congrArg _ (append_nil _).symm
  obtain ⟨rfl, hb⟩ := hspl
  obtain rfl := (cons.inj hb).1
  rw [append_assoc, stringIsValid_utf8Encode_append]
  constructor
  · intro hvld
    constructor
    · rintro rfl
      have hone : m = [] := by
        have hsing := utf8EncodeChar_eq_of_mem (hc ▸ mem_append_right m (mem_singleton_self _)) (by decide)
        exact (append_inj' (hc.symm.trans hsing) rfl).1
      rw [hone, nil_append, stringIsValid_cons_of_none (by decide)] at hvld
      exact nomatch hvld
    · rintro rfl
      obtain ⟨b₀, bs, heq, hrd⟩ := analyzeCharacter_utf8EncodeChar c []
      obtain ⟨b₁, bs', heq', hfst, -⟩ := exists_utf8EncodeChar_eq_cons c
      rw [heq', cons.injEq] at heq
      rw [heq', heq.1] at hc
      rw [heq.1] at hfst
      cases m with
      | nil =>
        rw [(cons.inj hc).1] at hfst
        exact absurd hfst (by decide)
      | cons b₂ m =>
        rw [cons_append, cons.injEq] at hc
        rw [append_nil, ← heq.2, hc.2, hc.1] at hrd
        rw [cons_append, stringIsValid_cons_of_none (analyzeCharacter_append_eq_none hrd (by decide))] at hvld
        exact nomatch hvld
  · rintro ⟨hasc, hcontn⟩
    obtain ⟨d, hd⟩ := exists_utf8EncodeChar_succ hc hasc hcontn
    rw [← hd, ← append_nil (String.utf8EncodeChar d)]
    exact stringIsValid_utf8Encode [d]

end WfOpt

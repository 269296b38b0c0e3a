import Mathlib

/-!
# UTF-8

The bytes of a character are a first byte and continuation bytes (`exists_utf8EncodeChar_eq_cons`), by which the
characters of a text can be told apart, and no character's bytes begin those of another one
(`utf8EncodeChar_append_inj`). Bytes below `0x80` are characters (`utf8EncodeChar_eq_of_mem`).
-/

namespace WfOpt

set_option maxRecDepth 10000

open List

/-- The bytes of a text. -/
def utf8Encode (l : List Char) : List UInt8 := l.flatMap String.utf8EncodeChar

@[simp] theorem utf8Encode_nil : utf8Encode [] = [] := rfl

theorem utf8Encode_cons (c : Char) (l : List Char) : utf8Encode (c :: l) = String.utf8EncodeChar c ++ utf8Encode l :=
  rfl

theorem utf8Encode_append (l l' : List Char) : utf8Encode (l ++ l') = utf8Encode l ++ utf8Encode l' := flatMap_append

/-- The byte does not start a character. -/
def isContinuationByte (b : UInt8) : Bool := b &&& 0xC0 = 0x80

theorem isContinuationByte_iff (b : UInt8) : isContinuationByte b = true ↔ 0x80 ≤ b.toNat ∧ b.toNat < 0xC0 := by
  revert b
  decide

private theorem isContinuationByte_ofNat {n : ℕ} (h : n < 0x40) : isContinuationByte (UInt8.ofNat (n + 0x80)) = true := by
  rw [isContinuationByte_iff, UInt8.toNat_ofNat']
  omega

private theorem not_isContinuationByte_ofNat {n : ℕ} (h : n < 0x80 ∨ 0xC0 ≤ n) (hlt : n < 0x100) :
    isContinuationByte (UInt8.ofNat n) = false := by
  rw [Bool.eq_false_iff, Ne, isContinuationByte_iff, UInt8.toNat_ofNat']
  omega

theorem exists_utf8EncodeChar_eq_cons (c : Char) :
    ∃ b l, String.utf8EncodeChar c = b :: l ∧ isContinuationByte b = false ∧ ∀ x ∈ l, isContinuationByte x = true := by
  unfold String.utf8EncodeChar
  dsimp only
  split_ifs
  · exact ⟨_, [], rfl, not_isContinuationByte_ofNat (by omega) (by omega), fun x hx => nomatch hx⟩
  · refine ⟨_, _, rfl, not_isContinuationByte_ofNat (by omega) (by omega), fun x hx => ?_⟩
    rw [mem_singleton.1 hx]
    exact isContinuationByte_ofNat (Nat.mod_lt _ (by decide))
  · refine ⟨_, _, rfl, not_isContinuationByte_ofNat (by omega) (by omega), fun x hx => ?_⟩
    rcases mem_pair.1 hx with rfl | rfl <;> exact isContinuationByte_ofNat (Nat.mod_lt _ (by decide))
  · refine ⟨_, _, rfl, not_isContinuationByte_ofNat (by omega) (by omega), fun x hx => ?_⟩
    simp only [mem_cons, not_mem_nil, or_false] at hx
    rcases hx with rfl | rfl | rfl <;> exact isContinuationByte_ofNat (Nat.mod_lt _ (by decide))

theorem utf8EncodeChar_ne_nil (c : Char) : String.utf8EncodeChar c ≠ [] := by
  obtain ⟨b, l, heq, -⟩ := exists_utf8EncodeChar_eq_cons c
  rw [heq]
  exact cons_ne_nil b l

/-- A text can be read off its bytes in one way only. -/
theorem utf8EncodeChar_append_inj {c d : Char} {l l' : List UInt8}
    (h : String.utf8EncodeChar c ++ l = String.utf8EncodeChar d ++ l') : c = d ∧ l = l' := by
  have hdec : ∀ (c : Char) (l : List UInt8),
      ByteArray.utf8DecodeChar? (String.utf8EncodeChar c ++ l).toByteArray 0 = some c := by
    intro c l
    rw [toByteArray_append]
    exact ByteArray.utf8DecodeChar?_utf8EncodeChar_append
  have heq : some c = some d := by rw [← hdec c l, h, hdec d l']
  cases heq
  exact ⟨rfl, append_cancel_left h⟩

theorem utf8Encode_injective : Function.Injective utf8Encode := by
  intro l l' h
  induction l generalizing l' with
  | nil =>
    cases l' with
    | nil => rfl
    | cons d l' =>
      exact absurd (append_eq_nil_iff.1 h.symm).1 (utf8EncodeChar_ne_nil d)
  | cons c l ih =>
    cases l' with
    | nil =>
      exact absurd (append_eq_nil_iff.1 h).1 (utf8EncodeChar_ne_nil c)
    | cons d l' =>
      obtain ⟨rfl, h'⟩ := utf8EncodeChar_append_inj h
      rw [ih h']

/-- Where the bytes of a text are cut, a text follows, possibly behind the last bytes of a character. -/
theorem exists_of_utf8Encode_eq_append {l : List Char} {u t : List UInt8} (h : utf8Encode l = u ++ t) :
    ∃ l₁ l₂ m, l = l₁ ++ l₂ ∧ t = m ++ utf8Encode l₂ ∧ (∀ x ∈ m, isContinuationByte x = true) ∧
      (m ≠ [] → l₁ ≠ []) := by
  induction l generalizing u with
  | nil =>
    obtain ⟨-, rfl⟩ := append_eq_nil_iff.1 h.symm
    exact ⟨[], [], [], rfl, rfl, (fun x hx => nomatch hx), fun h => absurd rfl h⟩
  | cons c l ih =>
    rcases append_eq_append_iff.1 h with ⟨v, -, hl⟩ | ⟨m, hc, rfl⟩
    · obtain ⟨l₁, l₂, m, rfl, rfl, hm, hne⟩ := ih hl
      exact ⟨c :: l₁, l₂, m, rfl, rfl, hm, fun _ => cons_ne_nil c l₁⟩
    · obtain ⟨b, bs, heq, -, hbs⟩ := exists_utf8EncodeChar_eq_cons c
      cases u with
      | nil =>
        exact ⟨[], c :: l, [], rfl, by rw [utf8Encode_cons, hc]; rfl, (fun x hx => nomatch hx),
          fun h => absurd rfl h⟩
      | cons y u =>
        rw [heq, cons_append, cons.injEq] at hc
        refine ⟨[c], l, m, rfl, rfl, fun x hx => hbs x ?_, fun _ => cons_ne_nil c []⟩
        rw [hc.2]
        exact mem_append_right u hx

/-- Behind the last bytes of a character, the next one is found. -/
theorem dropWhile_isContinuationByte {m : List UInt8} (hm : ∀ x ∈ m, isContinuationByte x = true) (l : List Char) :
    (m ++ utf8Encode l).dropWhile isContinuationByte = utf8Encode l := by
  rw [dropWhile_append_of_pos hm]
  cases l with
  | nil => rfl
  | cons c l =>
    obtain ⟨b, bs, heq, hb, -⟩ := exists_utf8EncodeChar_eq_cons c
    rw [utf8Encode_cons, heq, cons_append, dropWhile_cons_of_neg (Bool.not_eq_true _ ▸ hb)]

theorem utf8EncodeChar_eq_of_mem {c : Char} {b : UInt8} (hb : b ∈ String.utf8EncodeChar c) (hlt : b.toNat < 0x80) :
    String.utf8EncodeChar c = [b] := by
  have hle : ∀ n, 0x80 ≤ n → n < 0x100 → b ≠ UInt8.ofNat n := by
    rintro n hn hn' rfl
    rw [UInt8.toNat_ofNat'] at hlt
    omega
  unfold String.utf8EncodeChar at hb ⊢
  dsimp only at hb ⊢
  split_ifs at hb ⊢ <;> simp only [mem_cons, not_mem_nil, or_false] at hb
  · rw [hb]
  · rcases hb with hb | hb <;> exact absurd hb (hle _ (by omega) (by omega))
  · rcases hb with hb | hb | hb <;> exact absurd hb (hle _ (by omega) (by omega))
  · rcases hb with hb | hb | hb | hb <;> exact absurd hb (hle _ (by omega) (by omega))

/-- No byte has all bits set. -/
theorem utf8EncodeChar_ne (c : Char) : ∀ b ∈ String.utf8EncodeChar c, b ≠ 255 := by
  have hof : ∀ n, n % 256 < 255 → UInt8.ofNat n ≠ 255 := by
    intro n hn heq
    have := congrArg UInt8.toNat heq
    exact hn.ne this
  intro b hb
  simp only [String.utf8EncodeChar] at hb
  split_ifs at hb <;> simp only [mem_cons, not_mem_nil, or_false] at hb
  · rw [hb]
    exact hof _ (by omega)
  · rcases hb with rfl | rfl <;> exact hof _ (by omega)
  · rcases hb with rfl | rfl | rfl <;> exact hof _ (by omega)
  · rcases hb with rfl | rfl | rfl | rfl <;> exact hof _ (by omega)

theorem exists_char {n : ℕ} (h : n.isValidChar) : ∃ c : Char, c.val.toNat = n := ⟨Char.ofNatAux n h, rfl⟩

private theorem ofNat_ne {n m : ℕ} {b : UInt8} (hb : UInt8.ofNat n = b) (hne : b ≠ UInt8.ofNat m) : n ≠ m := by
  rintro rfl
  exact hne hb.symm

/-- The last byte of a character that is not the largest of its kind can be incremented. -/
theorem exists_utf8EncodeChar_succ {c : Char} {l : List UInt8} {b : UInt8}
    (h : String.utf8EncodeChar c = l ++ [b]) (hasc : b ≠ 0x7F) (hcontn : b ≠ 0xBF) :
    ∃ d : Char, String.utf8EncodeChar d = l ++ [b + 1] := by
  have hvld := c.valid
  unfold String.utf8EncodeChar at h
  dsimp only at h
  rw [UInt32.isValidChar] at hvld
  generalize c.val.toNat = v at h hvld
  have hsucc : ∀ n, UInt8.ofNat n + 1 = UInt8.ofNat (n + 1) := fun n => (UInt8.ofNat_add n 1).symm
  have hlst : ∀ {l' : List UInt8} {n : ℕ}, l' ++ [UInt8.ofNat n] = l ++ [b] → l' = l ∧ UInt8.ofNat n = b := by
    intro l' n h
    obtain ⟨rfl, hb⟩ := append_inj' h rfl
    exact ⟨rfl, (cons.inj hb).1⟩
  have hnx : v ≠ 0xD7FF → v ≠ 0x10FFFF → ∃ d : Char, d.val.toNat = v + 1 := fun _ _ =>
    exists_char (by rw [Nat.isValidChar] at hvld ⊢; omega)
  have hdm : v % 64 + 128 ≠ 0xBF → ∀ k, 64 ∣ k → (v + 1) / k = v / k ∧ (v + 1) % 64 + 128 = v % 64 + 128 + 1 := by
    rintro hne k ⟨k, rfl⟩
    rw [← Nat.div_div_eq_div_mul, ← Nat.div_div_eq_div_mul, show (v + 1) / 64 = v / 64 by omega]
    exact ⟨rfl, by omega⟩
  -- The next code point has as many bytes, and all but the last one are the same.
  split_ifs at h
  · obtain ⟨rfl, hb⟩ := @hlst [] _ h
    have hne : v ≠ 0x7F := ofNat_ne hb hasc
    obtain ⟨d, hd⟩ := hnx (by omega) (by omega)
    refine ⟨d, ?_⟩
    rw [String.utf8EncodeChar, hd, ← hb, hsucc, if_pos (by omega)]
    rfl
  · obtain ⟨rfl, hb⟩ := @hlst [_] _ h
    have hne : v % 64 + 128 ≠ 0xBF := ofNat_ne hb hcontn
    obtain ⟨d, hd⟩ := hnx (by omega) (by omega)
    refine ⟨d, ?_⟩
    rw [String.utf8EncodeChar, hd, ← hb, hsucc, if_neg (by omega), if_pos (by omega),
      (hdm hne 64 (by decide)).1, (hdm hne 64 (by decide)).2]
    rfl
  · obtain ⟨rfl, hb⟩ := @hlst [_, _] _ h
    have hne : v % 64 + 128 ≠ 0xBF := ofNat_ne hb hcontn
    obtain ⟨d, hd⟩ := hnx (by omega) (by omega)
    refine ⟨d, ?_⟩
    rw [String.utf8EncodeChar, hd, ← hb, hsucc, if_neg (by omega), if_neg (by omega), if_pos (by omega),
      (hdm hne 4096 (by decide)).1, (hdm hne 64 (by decide)).1, (hdm hne 64 (by decide)).2]
    rfl
  · obtain ⟨rfl, hb⟩ := @hlst [_, _, _] _ h
    have hne : v % 64 + 128 ≠ 0xBF := ofNat_ne hb hcontn
    obtain ⟨d, hd⟩ := hnx (by omega) (by omega)
    refine ⟨d, ?_⟩
    rw [String.utf8EncodeChar, hd, ← hb, hsucc, if_neg (by omega), if_neg (by omega), if_neg (by omega),
      (hdm hne 262144 (by decide)).1, (hdm hne 4096 (by decide)).1, (hdm hne 64 (by decide)).1,
      (hdm hne 64 (by decide)).2]
    rfl

end WfOpt

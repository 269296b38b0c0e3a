import WfOpt.Lib.DecimalText

/-!
# Writing numbers

`NumericHelper::FormatUnsigned` writes a number two digits at a time, from its end, in front of a position, and the
formatters write zeros in front of it. What is written is the number with a fixed number of digits
(`NumericHelper.formatPadded_spec`).
-/

namespace WfOpt

open List

/-! ## Characters -/

namespace StringUtil

def characterIsSpace (c : UInt8) : Bool :=
  c = ' '.toUInt8 || c = '\t'.toUInt8 || c = '\n'.toUInt8 || c = 11 || c = 12 || c = '\r'.toUInt8

def characterToLower (c : UInt8) : UInt8 := if 'A'.toUInt8 ≤ c && c ≤ 'Z'.toUInt8 then c + 32 else c

/-- The characters of a string, which are all ASCII. -/
def ascii (s : String) : List UInt8 := s.toList.map Char.toUInt8

/-- The loops that skip spaces -/
def skipSpaces (buf : List UInt8) : List UInt8 := buf.dropWhile characterIsSpace

theorem not_space_of_isDigit {c : UInt8} (h : isDigit c = true) : characterIsSpace c = false := by
  by_contra hspace
  rw [Bool.not_eq_false, characterIsSpace] at hspace
  simp only [Bool.or_eq_true, decide_eq_true_eq] at hspace
  rcases hspace with ((((rfl | rfl) | rfl) | rfl) | rfl) | rfl <;> exact absurd h (by decide)

theorem skipSpaces_of_isDigit {c : UInt8} (h : isDigit c = true) (buf : List UInt8) :
    skipSpaces (c :: buf) = c :: buf := by
  rw [skipSpaces, dropWhile_cons_of_neg]
  rw [not_space_of_isDigit h]
  exact Bool.false_ne_true

end StringUtil

/-! ## Writing numbers -/

namespace NumericHelper

/-- `duckdb_fmt::internal::data::digits`: the numbers from 00 to 99 -/
def digits : List UInt8 := (range 100).flatMap fun n => [digitChar (n / 10), digitChar (n % 10)]

/-- `NumericHelper::FormatUnsigned`: the digits are written in front of a position. -/
def formatUnsigned (value ptr : ℕ) (buffer : TextBuffer) : Option (ℕ × TextBuffer) := if 100 ≤ value then do
    let (ptr, buffer) ← buffer.writeBefore (digits.getD (value % 100 * 2 + 1) 0) ptr
    let (ptr, buffer) ← buffer.writeBefore (digits.getD (value % 100 * 2) 0) ptr
    formatUnsigned (value / 100) ptr buffer
  else if value < 10 then buffer.writeBefore (digitChar value) ptr
  else do
    let (ptr, buffer) ← buffer.writeBefore (digits.getD (value * 2 + 1) 0) ptr
    buffer.writeBefore (digits.getD (value * 2) 0) ptr
termination_by value

/-- The loop that writes leading zeros -/
def padZeros (buffer : TextBuffer) : ℕ → Option TextBuffer
  | 0 => some buffer
  | ptr + 1 => do padZeros (← buffer.write ptr '0'.toUInt8) ptr

/-- A number is written in front of a position, with zeros in front of it. -/
def formatPadded (value ptr : ℕ) (buffer : TextBuffer) : Option TextBuffer := do
  let (ptr, buffer) ← formatUnsigned value ptr buffer
  padZeros buffer ptr

theorem digits_getD {n : ℕ} (h : n < 100) :
    digits.getD (n * 2) 0 = digitChar (n / 10) ∧ digits.getD (n * 2 + 1) 0 = digitChar (n % 10) := by
  revert n
  decide

/-- Two digits are written in front of the cells that are left. -/
theorem writeBefore_two {n : ℕ} (h : n < 100) (front : TextBuffer) (x y : Option UInt8) (back : TextBuffer) :
    TextBuffer.writeBefore (front ++ x :: y :: back) (digits.getD (n * 2 + 1) 0) (front.length + 2) =
        some (front.length + 1, front ++ x :: some (digitChar (n % 10)) :: back) ∧
      TextBuffer.writeBefore (front ++ x :: some (digitChar (n % 10)) :: back) (digits.getD (n * 2) 0)
        (front.length + 1) = some (front.length, front ++ (decimalText 2 n).map some ++ back) := by
  obtain ⟨hfst, hsnd⟩ := digits_getD h
  constructor
  · rw [hsnd]
    have := TextBuffer.writeBefore_append (front ++ [x]) y back (digitChar (n % 10))
      (by simp : front.length + 2 = (front ++ [x]).length + 1)
    simpa using this
  · rw [hfst, TextBuffer.writeBefore_append front x _ _ rfl, decimalText_two h]
    simp

theorem exists_append_two {α : Type} {l : List α} {n : ℕ} (h : l.length = n + 2) :
    ∃ front x y, l = front ++ [x, y] ∧ front.length = n := by
  have hdrop : (l.drop n).length = 2 := by rw [length_drop, h, Nat.add_sub_cancel_left]
  obtain ⟨x, y, hxy⟩ := length_eq_two.1 hdrop
  exact ⟨l.take n, x, y, hxy ▸ (take_append_drop n l).symm, by simp [h]⟩

theorem exists_append_one {α : Type} {l : List α} {n : ℕ} (h : l.length = n + 1) :
    ∃ front x, l = front ++ [x] ∧ front.length = n := by
  rcases eq_nil_or_concat' l with rfl | ⟨front, x, rfl⟩
  · exact nomatch h
  · rw [length_append] at h
    exact ⟨front, x, rfl, Nat.succ.inj h⟩

/-- The digits of a number are written, and the cells in front of them are left. -/
theorem formatUnsigned_spec {value w : ℕ} (hw : 0 < w) (hval : value < 10 ^ w) {cells : TextBuffer}
    (hcells : cells.length = w) (back : TextBuffer) :
    ∃ k ≤ w, value < 10 ^ (w - k) ∧ formatUnsigned value w (cells ++ back) =
      some (k, cells.take k ++ (decimalText (w - k) value).map some ++ back) := by
  induction value using Nat.strong_induction_on generalizing w cells back with
  | _ value ih =>
    by_cases hlrg : 100 ≤ value
    · -- Two digits are written, and the others in front of them.
      have hw3 : 3 ≤ w := by
        by_contra hlt
        have : 10 ^ w ≤ 10 ^ 2 := Nat.pow_le_pow_right (by decide) (by omega)
        omega
      obtain ⟨n, rfl⟩ := Nat.exists_eq_add_of_le' (by omega : 2 ≤ w)
      obtain ⟨front, x, y, rfl, hfront⟩ := exists_append_two hcells
      have hdiv : value / 100 < 10 ^ n := by
        rw [pow_add] at hval
        exact Nat.div_lt_of_lt_mul (Nat.mul_comm _ _ ▸ hval)
      obtain ⟨k, hk, hlt, hformat⟩ := ih (value / 100) (by omega) (by omega : 0 < n) hdiv hfront
        ((decimalText 2 (value % 100)).map some ++ back)
      have hsub : n + 2 - k = n - k + 2 := by omega
      refine ⟨k, by omega, ?_, ?_⟩
      · rw [hsub, pow_add]
        exact (Nat.div_lt_iff_lt_mul (by decide)).1 hlt
      · rw [formatUnsigned, if_pos hlrg, ← hfront, append_assoc]
        obtain ⟨hsnd, hfst⟩ := writeBefore_two (Nat.mod_lt value (by decide)) front x y back
        rw [cons_append, singleton_append, hsnd]
        simp only [Option.bind_eq_bind, Option.bind_some]
        rw [hfst]
        simp only [Option.bind_some]
        rw [hfront, append_assoc, hformat, hsub, decimalText_eq_append (n - k) value,
          take_append_of_le_length (hfront ▸ hk), map_append]
        simp only [append_assoc]
    · by_cases hsm : value < 10
      · obtain ⟨n, rfl⟩ := Nat.exists_eq_add_of_le' hw
        obtain ⟨front, x, rfl, hfront⟩ := exists_append_one hcells
        refine ⟨n, n.le_succ, ?_, ?_⟩
        · rwa [Nat.add_sub_cancel_left]
        · rw [formatUnsigned, if_neg hlrg, if_pos hsm, append_assoc]
          refine (TextBuffer.writeBefore_append front x back (digitChar value) (hfront ▸ rfl)).trans ?_
          rw [Nat.add_sub_cancel_left, decimalText, decimalText, Nat.mod_eq_of_lt hsm, hfront,
            take_append_of_le_length hfront.ge, ← hfront, take_length]
          simp
      · have hw2 : 2 ≤ w := by
          by_contra hlt
          have : 10 ^ w ≤ 10 ^ 1 := Nat.pow_le_pow_right (by decide) (by omega)
          omega
        obtain ⟨n, rfl⟩ := Nat.exists_eq_add_of_le' hw2
        obtain ⟨front, x, y, rfl, hfront⟩ := exists_append_two hcells
        have hlt : value < 100 := not_le.1 hlrg
        refine ⟨n, by omega, ?_, ?_⟩
        · rwa [Nat.add_sub_cancel_left]
        · rw [formatUnsigned, if_neg hlrg, if_neg hsm, ← hfront, append_assoc]
          obtain ⟨hsnd, hfst⟩ := writeBefore_two hlt front x y back
          rw [cons_append, singleton_append, hsnd]
          simp only [Option.bind_eq_bind, Option.bind_some]
          rw [hfst, Nat.add_sub_cancel_left, take_append_of_le_length le_rfl, take_length]

theorem padZeros_spec (cells back : TextBuffer) : padZeros (cells ++ back) cells.length =
      some ((replicate cells.length '0'.toUInt8).map some ++ back) := by
  induction cells using reverseRecOn generalizing back with
  | nil => rfl
  | append_singleton cells x ih =>
    rw [length_append, length_singleton, padZeros, append_assoc, singleton_append, TextBuffer.write_append]
    refine (ih (some '0'.toUInt8 :: back)).trans ?_
    rw [replicate_succ', map_append, append_assoc]
    rfl

/-- A number is written with zeros in front, if it has no more digits than there is room for. -/
theorem formatPadded_spec {value w : ℕ} (hw : 0 < w) (hval : value < 10 ^ w) {cells : TextBuffer}
    (hcells : cells.length = w) (back : TextBuffer) :
    formatPadded value w (cells ++ back) = some ((decimalText w value).map some ++ back) := by
  obtain ⟨k, hk, hlt, hformat⟩ := formatUnsigned_spec hw hval hcells back
  have hlen : (cells.take k).length = k := by rw [length_take, hcells, min_eq_left hk]
  have hpad := padZeros_spec (cells.take k) ((decimalText (w - k) value).map some ++ back)
  rw [hlen] at hpad
  rw [formatPadded, hformat, append_assoc]
  refine hpad.trans ?_
  have htext := decimalText_add hlt k
  rw [Nat.add_sub_cancel' hk] at htext
  rw [htext, map_append, append_assoc]

end NumericHelper

end WfOpt

import Mathlib

/-!
# Decimal numbers as text

Numbers are written as ASCII digits, padded with zeros to a given width (`decimalText`), and are read back from them
(`ofDecimal_decimalText`). Text is written into a buffer of a fixed length: a write outside of it fails, and the text
of a buffer is known only if all its characters have been written (`TextBuffer.text`). So a buffer that has a text was
filled exactly.
-/

namespace WfOpt

open List

/-! ## Digits -/

def isDigit (c : UInt8) : Bool := '0'.toUInt8 ≤ c && c ≤ '9'.toUInt8

/-- The character of a digit. -/
def digitChar (d : ℕ) : UInt8 := UInt8.ofNat (48 + d)

/-- The digit that a character stands for. -/
def digitValue (c : UInt8) : ℕ := c.toNat - 48

theorem isDigit_digitChar {d : ℕ} (h : d < 10) : isDigit (digitChar d) = true := by
  revert d
  decide

theorem digitValue_digitChar {d : ℕ} (h : d < 10) : digitValue (digitChar d) = d := by
  revert d
  decide

/-- The last `w` decimal digits of a number. -/
def decimalText : ℕ → ℕ → List UInt8
  | 0, _ => []
  | w + 1, n => decimalText w (n / 10) ++ [digitChar (n % 10)]

/-- A number is read from its digits, behind those that have been read. -/
def ofDecimal (n : ℕ) (digits : List UInt8) : ℕ := digits.foldl (fun n c => n * 10 + digitValue c) n

@[simp] theorem length_decimalText (w n : ℕ) : (decimalText w n).length = w := by
  induction w generalizing n with
  | zero => rfl
  | succ w ih => rw [decimalText, length_append, ih, length_singleton]

theorem isDigit_of_mem_decimalText {w n : ℕ} {c : UInt8} (h : c ∈ decimalText w n) : isDigit c = true := by
  induction w generalizing n with
  | zero => exact (not_mem_nil h).elim
  | succ w ih =>
    rcases mem_append.1 h with h | h
    · exact ih h
    · rw [mem_singleton.1 h]
      exact isDigit_digitChar (Nat.mod_lt n (by decide))

theorem ofDecimal_append (n : ℕ) (digits digits' : List UInt8) :
    ofDecimal n (digits ++ digits') = ofDecimal (ofDecimal n digits) digits' :=
  foldl_append

theorem ofDecimal_replicate (n k : ℕ) : ofDecimal n (replicate k '0'.toUInt8) = n * 10 ^ k := by
  induction k generalizing n with
  | zero => exact (Nat.mul_one n).symm
  | succ k ih =>
    have hz : digitValue '0'.toUInt8 = 0 := rfl
    refine (ih (n * 10 + digitValue '0'.toUInt8)).trans ?_
    rw [hz, Nat.add_zero, Nat.pow_succ', Nat.mul_assoc]

theorem exists_cons_decimalText {w : ℕ} (h : 0 < w) (n : ℕ) :
    ∃ c digits, decimalText w n = c :: digits ∧ isDigit c = true := by
  have hlen := length_decimalText w n
  match hdig : decimalText w n with
  | [] =>
    rw [hdig] at hlen
    exact absurd hlen h.ne
  | c :: digits => exact ⟨c, digits, rfl, isDigit_of_mem_decimalText (hdig ▸ mem_cons_self)⟩

theorem ofDecimal_decimalText {w n : ℕ} (h : n < 10 ^ w) : ofDecimal 0 (decimalText w n) = n := by
  induction w generalizing n with
  | zero => exact (Nat.lt_one_iff.1 h).symm
  | succ w ih =>
    have hdiv : n / 10 < 10 ^ w := Nat.div_lt_of_lt_mul (Nat.pow_succ' ▸ h)
    have hlst := digitValue_digitChar (Nat.mod_lt n (by decide : 0 < 10))
    calc ofDecimal 0 (decimalText w (n / 10) ++ [digitChar (n % 10)])
        = ofDecimal 0 (decimalText w (n / 10)) * 10 + digitValue (digitChar (n % 10)) := foldl_append
      _ = n / 10 * 10 + n % 10 := by rw [ih hdiv, hlst]
      _ = n := Nat.div_add_mod' n 10

theorem decimalText_zero (w : ℕ) : decimalText w 0 = replicate w '0'.toUInt8 := by
  induction w with
  | zero => rfl
  | succ w ih =>
    rw [decimalText, replicate_succ', Nat.zero_div, ih]
    rfl

theorem le_ofDecimal (digits : List UInt8) (n : ℕ) : n ≤ ofDecimal n digits := by
  induction digits generalizing n with
  | nil => exact le_rfl
  | cons c digits ih =>
    refine le_trans ?_ (ih (n * 10 + digitValue c))
    omega

/-- A number with fewer digits is padded with zeros. -/
theorem decimalText_add {k n : ℕ} (h : n < 10 ^ k) (w : ℕ) :
    decimalText (w + k) n = replicate w '0'.toUInt8 ++ decimalText k n := by
  induction k generalizing n with
  | zero =>
    rw [Nat.lt_one_iff.1 h, Nat.add_zero, decimalText_zero]
    exact (append_nil _).symm
  | succ k ih =>
    have hdiv : n / 10 < 10 ^ k := Nat.div_lt_of_lt_mul (Nat.pow_succ' ▸ h)
    rw [← Nat.add_assoc, decimalText, decimalText, ih hdiv, append_assoc]

theorem decimalText_add_two (w n : ℕ) :
    decimalText (w + 2) n = decimalText w (n / 100) ++ [digitChar (n % 100 / 10), digitChar (n % 10)] := by
  rw [decimalText, decimalText, Nat.div_div_eq_div_mul, append_assoc, Nat.mod_mul_right_div_self n 10 10]
  rfl

theorem decimalText_two {n : ℕ} (h : n < 100) : decimalText 2 n = [digitChar (n / 10), digitChar (n % 10)] := by
  rw [decimalText_add_two, Nat.mod_eq_of_lt h]
  rfl

/-- A number is written two digits at a time. -/
theorem decimalText_eq_append (w n : ℕ) :
    decimalText (w + 2) n = decimalText w (n / 100) ++ decimalText 2 (n % 100) := by
  rw [decimalText_add_two, decimalText_two (Nat.mod_lt n (by decide)), Nat.mod_mod_of_dvd n (by decide : 10 ∣ 100)]

/-! ## Buffers -/

/-- The characters of a buffer, where they have been written. -/
abbrev TextBuffer := List (Option UInt8)

namespace TextBuffer

/-- A buffer of a length, in which nothing is written. -/
def uninitialized (length : ℕ) : TextBuffer := replicate length none

/-- `buffer[i] = c` -/
def write (buffer : TextBuffer) (i : ℕ) (c : UInt8) : Option TextBuffer :=
  if i < buffer.length then some (buffer.set i (some c)) else none

/-- `memcpy` -/
def writeAll (buffer : TextBuffer) (i : ℕ) : List UInt8 → Option TextBuffer
  | [] => some buffer
  | c :: text => do (← buffer.write i c).writeAll (i + 1) text

/-- `*--ptr = c` -/
def writeBefore (buffer : TextBuffer) (c : UInt8) : ℕ → Option (ℕ × TextBuffer)
  | 0 => none
  | ptr + 1 => do return (ptr, ← buffer.write ptr c)

/-- The text of a buffer all of whose characters have been written. -/
def text : TextBuffer → Option (List UInt8)
  | [] => some []
  | none :: _ => none
  | some c :: buffer => do return c :: (← text buffer)

theorem write_append (front : TextBuffer) (cell : Option UInt8) (back : TextBuffer) (c : UInt8) :
    write (front ++ cell :: back) front.length c = some (front ++ some c :: back) := by
  rw [write, if_pos (by simp), set_append_right _ _ le_rfl, Nat.sub_self]
  rfl

theorem writeAll_append {cells : TextBuffer} {text : List UInt8} (h : cells.length = text.length)
    (front back : TextBuffer) :
    writeAll (front ++ cells ++ back) front.length text = some (front ++ text.map some ++ back) := by
  induction text generalizing front cells with
  | nil =>
    rw [length_eq_zero_iff.1 h]
    rfl
  | cons c text ih =>
    cases cells with
    | nil => exact nomatch h
    | cons cell cells =>
      rw [writeAll, append_assoc, cons_append, write_append]
      have := ih (Nat.succ.inj h) (front ++ [some c])
      simpa using this

theorem writeBefore_append (front : TextBuffer) (cell : Option UInt8) (back : TextBuffer) (c : UInt8) {ptr : ℕ}
    (h : ptr = front.length + 1) :
    writeBefore (front ++ cell :: back) c ptr = some (front.length, front ++ some c :: back) := by
  rw [h, writeBefore, write_append]
  rfl

theorem text_map_some (t : List UInt8) : text (t.map some) = some t := by
  induction t with
  | nil => rfl
  | cons c t ih =>
    rw [map_cons, text, ih]
    rfl

end TextBuffer

end WfOpt

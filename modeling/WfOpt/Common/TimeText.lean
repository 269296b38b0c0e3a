import WfOpt.Common.DateText

/-!
# Times as text

`Time::ToString` writes the hours, minutes and seconds of a time, and a fraction without trailing zeros if there is
one. The length of the text depends on the fraction, which is written into a buffer of its own first. What is written
(`Time.toString_eq`) is read as the time again (`Time.tryConvertInternal_text`). Nanoseconds, which only some callers
ask for, are left out.
-/

namespace WfOpt

open List Option StringUtil

namespace Interval

def microsPerSec : ℤ := 1000000
def microsPerMinute : ℤ := 60000000
def microsPerHour : ℤ := 3600000000
def microsPerDay : ℤ := 86400000000

end Interval

/-! ## Writing times -/

namespace TimeToStringCast

/-- The loop of `FormatMicros` that counts trailing zeros, from a position down to the second character -/
def trailingZeros (microBuffer : TextBuffer) : ℕ → ℕ
  | 0 => 0
  | i + 1 => if microBuffer.getD (i + 1) none ≠ some '0'.toUInt8 then 0 else trailingZeros microBuffer i + 1

/-- `TimeToStringCast::FormatMicros` -/
def formatMicros (microseconds : ℕ) (microBuffer : TextBuffer) : Option (ℕ × TextBuffer) := do
  let microBuffer ← NumericHelper.formatPadded microseconds 6 microBuffer
  return (trailingZeros microBuffer 5, microBuffer)

/-- `TimeToStringCast::MicrosLength` -/
def microsLength (micros : ℕ) (microBuffer : TextBuffer) : Option (ℕ × TextBuffer) :=
  if micros = 0 then some (8, microBuffer)
  else do
    let (zeros, microBuffer) ← formatMicros micros microBuffer
    return (15 - zeros, microBuffer)

/-- `TimeToStringCast::FormatTwoDigits` -/
def formatTwoDigits (value ptr : ℕ) (buffer : TextBuffer) : Option TextBuffer := do
  if value < 10 then
    let buffer ← buffer.write ptr '0'.toUInt8
    buffer.write (ptr + 1) (digitChar value)
  else
    let buffer ← buffer.write ptr (NumericHelper.digits.getD (value * 2) 0)
    buffer.write (ptr + 1) (NumericHelper.digits.getD (value * 2 + 1) 0)

/-- `TimeToStringCast::Format` -/
def format (buffer : TextBuffer) (length hour minute second : ℕ) (microBuffer : TextBuffer) : Option TextBuffer := do
  let buffer ← formatTwoDigits hour 0 buffer
  let buffer ← buffer.write 2 ':'.toUInt8
  let buffer ← formatTwoDigits minute 3 buffer
  let buffer ← buffer.write 5 ':'.toUInt8
  let buffer ← formatTwoDigits second 6 buffer
  if length > 8 then
    let buffer ← buffer.write 8 '.'.toUInt8
    buffer.writeAll 9 (← TextBuffer.text (microBuffer.take (length - 9)))
  else return buffer

end TimeToStringCast

/-! ### What is written -/

namespace TimeToStringCast

theorem formatTwoDigits_spec {value : ℕ} (h : value < 100) (front : TextBuffer) (x y : Option UInt8)
    (back : TextBuffer) :
    formatTwoDigits value front.length (front ++ x :: y :: back) =
      some (front ++ (decimalText 2 value).map some ++ back) := by
  obtain ⟨hfst, hsnd⟩ := NumericHelper.digits_getD h
  have hz : '0'.toUInt8 = digitChar 0 := rfl
  have hwrt : ∀ c₁ c₂, (do
      let buffer ← TextBuffer.write (front ++ x :: y :: back) front.length c₁
      buffer.write (front.length + 1) c₂) = some (front ++ some c₁ :: some c₂ :: back) := by
    intro c₁ c₂
    have hy := TextBuffer.write_append (front ++ [some c₁]) y back c₂
    simp only [length_append, length_cons, length_nil, append_assoc, cons_append,
      nil_append, Nat.zero_add] at hy
    rw [TextBuffer.write_append]
    exact hy
  rw [formatTwoDigits]
  split_ifs with hsm
  · refine (hwrt _ _).trans ?_
    rw [decimalText_two h, Nat.div_eq_of_lt hsm, Nat.mod_eq_of_lt hsm, hz]
    simp
  · refine (hwrt _ _).trans ?_
    rw [hfst, hsnd, decimalText_two h]
    simp

/-- The hours, minutes and seconds as text -/
def clockText (hour minute second : ℕ) : List UInt8 :=
  decimalText 2 hour ++ ':'.toUInt8 :: decimalText 2 minute ++ ':'.toUInt8 :: decimalText 2 second

/-- A buffer of the length of a time is filled by its text. -/
theorem format_spec {hour minute second : ℕ} (hhour : hour < 100) (hminute : minute < 100) (hsnd : second < 100)
    {fraction : List UInt8} {microBuffer : TextBuffer}
    (hfrac : microBuffer.take fraction.length = fraction.map some) :
    format (.uninitialized (9 + fraction.length)) (9 + fraction.length) hour minute second microBuffer =
        some ((clockText hour minute second ++ '.'.toUInt8 :: fraction).map some) ∧
      format (.uninitialized 8) 8 hour minute second microBuffer =
        some ((clockText hour minute second).map some) := by
  have hbuf : ∀ n, TextBuffer.uninitialized (8 + n) =
      none :: none :: none :: none :: none :: none :: none :: none :: replicate n none := by
    intro n
    rw [TextBuffer.uninitialized, Nat.add_comm]
    rfl
  -- The first eight characters, whatever is behind them
  have hclock : ∀ {γ : Type} (back : TextBuffer) (f : TextBuffer → Option γ), (do
      let buffer ← formatTwoDigits hour 0
        (none :: none :: none :: none :: none :: none :: none :: none :: back)
      let buffer ← buffer.write 2 ':'.toUInt8
      let buffer ← formatTwoDigits minute 3 buffer
      let buffer ← buffer.write 5 ':'.toUInt8
      let buffer ← formatTwoDigits second 6 buffer
      f buffer) = f ((clockText hour minute second).map some ++ back) := by
    intro γ back f
    have hhour' := formatTwoDigits_spec hhour [] none none
    have hcolon := TextBuffer.write_append ((decimalText 2 hour).map some) none
    have hminute' := formatTwoDigits_spec hminute ((decimalText 2 hour).map some ++ [some ':'.toUInt8]) none none
    have hcolon' := TextBuffer.write_append
      ((decimalText 2 hour).map some ++ [some ':'.toUInt8] ++ (decimalText 2 minute).map some) none
    have hsnd' := formatTwoDigits_spec hsnd
      ((decimalText 2 hour).map some ++ [some ':'.toUInt8] ++ (decimalText 2 minute).map some ++
        [some ':'.toUInt8]) none none back
    simp only [length_append, length_map, length_decimalText, length_cons, length_nil,
      nil_append, append_assoc, cons_append, Nat.reduceAdd] at hhour' hcolon hminute' hcolon' hsnd'
    simp only [bind_eq_bind]
    rw [hhour', bind_some, hcolon, bind_some, hminute', bind_some, hcolon', bind_some,
      hsnd', bind_some, clockText]
    simp
  have hformat : ∀ n length, format (.uninitialized (8 + n)) length hour minute second microBuffer =
      if length > 8 then do
        let buffer ← TextBuffer.write ((clockText hour minute second).map some ++ replicate n none) 8
          '.'.toUInt8
        buffer.writeAll 9 (← TextBuffer.text (microBuffer.take (length - 9)))
      else some ((clockText hour minute second).map some ++ replicate n none) := by
    intro n length
    rw [format, hbuf]
    exact hclock _ _
  have hlen : ((clockText hour minute second).map some).length = 8 := by simp [clockText]
  constructor
  · have hpoint := TextBuffer.write_append ((clockText hour minute second).map some) none
    have hroom : (replicate fraction.length (none : Option UInt8)).length = fraction.length :=
      length_replicate
    have hwrt := TextBuffer.writeAll_append hroom
      ((clockText hour minute second).map some ++ [some '.'.toUInt8]) []
    rw [hlen] at hpoint
    rw [length_append, hlen, append_nil, append_nil, append_assoc] at hwrt
    have hnine : 9 + fraction.length = 8 + (fraction.length + 1) := by omega
    have hsub : 9 + fraction.length - 9 = fraction.length := by omega
    rw [hnine, hformat, ← hnine, if_pos (by omega), hsub, hfrac, TextBuffer.text_map_some,
      replicate_succ, hpoint]
    refine hwrt.trans ?_
    simp
  · refine (hformat 0 8).trans ?_
    rw [if_neg (lt_irrefl 8), replicate_zero, append_nil]

/-! ### The fraction -/

/-- The trailing zeros of a fraction, up to a position -/
theorem trailingZeros_spec (text : List UInt8) {i : ℕ} (hi : i < text.length) :
    trailingZeros (text.map some) i ≤ i ∧ text.take (i + 1) = text.take (i + 1 - trailingZeros (text.map some) i) ++
        replicate (trailingZeros (text.map some) i) '0'.toUInt8 := by
  induction i with
  | zero => exact ⟨le_rfl, (append_nil _).symm⟩
  | succ i ih =>
    rw [trailingZeros]
    split_ifs with h
    · exact ⟨Nat.zero_le _, (append_nil _).symm⟩
    · obtain ⟨hle, htake⟩ := ih (Nat.lt_of_succ_lt hi)
      refine ⟨Nat.succ_le_succ hle, ?_⟩
      have hz : text[i + 1] = '0'.toUInt8 := by
        rw [not_not, getD_eq_getElem _ _ (by rwa [length_map]), getElem_map] at h
        exact some.inj h
      rw [take_succ_eq_append_getElem hi, htake, hz, append_assoc, ← replicate_succ']
      congr 2
      omega

end TimeToStringCast

namespace Time

/-- The hours, minutes, seconds and microseconds of a time. -/
structure Units where
  hour : ℤ
  min : ℤ
  sec : ℤ
  micros : ℤ

/-- `Time::Convert` -/
def convert (time : ℤ) : Units := let hour := time.tdiv Interval.microsPerHour
  let time := time - hour * Interval.microsPerHour
  let min := time.tdiv Interval.microsPerMinute
  let time := time - min * Interval.microsPerMinute
  let sec := time.tdiv Interval.microsPerSec
  let time := time - sec * Interval.microsPerSec
  ⟨hour, min, sec, time⟩

/-- `Time::FromTime` -/
def fromTime (hour minute second microseconds : ℤ) : ℤ :=
  ((hour * 60 + minute) * 60 + second) * Interval.microsPerSec + microseconds

/-- `Time::ToString` -/
def toString (time : ℤ) : Option (List UInt8) := do
  let units := convert time
  let (length, microBuffer) ← TimeToStringCast.microsLength units.micros.toNat (.uninitialized 6)
  let buffer ← TimeToStringCast.format (.uninitialized length) length units.hour.toNat units.min.toNat
    units.sec.toNat microBuffer
  TextBuffer.text buffer

/-! ## Reading times -/

/-- The loop over the digits of the hours, which fails if there are too many -/
def hourLoop : List UInt8 → ℕ → ℕ → Option (ℕ × List UInt8)
  | [], hour, _ => some (hour, [])
  | c :: buf, hour, digits =>
    if isDigit c then
      match digits with
      | 0 => none
      | digits + 1 => hourLoop buf (hour * 10 + digitValue c) digits
    else some (hour, c :: buf)

/-- The loop over the digits of the fraction -/
def microsLoop : List UInt8 → ℕ → ℕ → ℕ × List UInt8
  | [], micros, _ => (micros, [])
  | c :: buf, micros, mult =>
    if isDigit c then microsLoop buf (if mult > 0 then micros + digitValue c * mult else micros) (mult / 10)
    else (micros, c :: buf)

/-- A part of a time with two digits, which is less than 60 -/
def convertSixty (strict : Bool) (buf : List UInt8) : Option (ℕ × List UInt8) :=
  if buf = [] ∧ ¬strict then some (0, [])
  else do
    let (value, rest) ← Date.parseDoubleDigit buf
    if value ≥ 60 then none else some (value, rest)

/-- `Time::TryConvertInternal` after the minutes, of which strict mode wants two digits if there is nothing else. -/
def convertSeconds (strict : Bool) (sepPos buf : List UInt8) : Option (ℕ × List UInt8) := match buf with
  -- Otherwise the character behind the text is looked at, which is no separator.
  | [] => if ¬strict ∨ sepPos.length = 2 then some (0, []) else none
  | c :: rest => if c ≠ ':'.toUInt8 then none else convertSixty strict rest

/-- `Time::TryConvertInternal` after the seconds -/
def convertMicros (buf : List UInt8) : ℕ × List UInt8 := match buf with
  | [] => (0, [])
  | c :: rest => if c = '.'.toUInt8 then microsLoop rest 0 100000 else (0, c :: rest)

/-- `Time::TryConvertInternal`, with what stands behind the time -/
def tryConvertInternal (strict : Bool) (buf : List UInt8) : Option (ℤ × List UInt8) := do
  let buf := skipSpaces buf
  if ¬buf.head?.any isDigit then none
  let (hour, rest) ← hourLoop buf 0 9
  match rest with
  | [] => none
  | sep :: sepPos =>
    if sep ≠ ':'.toUInt8 then none
    let (min, rest) ← convertSixty strict sepPos
    let (sec, rest) ← convertSeconds strict sepPos rest
    let (micros, rest) := convertMicros rest
    let rest := if strict then skipSpaces rest else rest
    if strict ∧ rest ≠ [] then none
    return (fromTime hour min sec micros, rest)

/-! ## The round trip -/

/-- The fraction of a second without trailing zeros -/
def fractionText (micros : ℕ) : List UInt8 :=
  (decimalText 6 micros).take (6 - TimeToStringCast.trailingZeros ((decimalText 6 micros).map some) 5)

/-- The text of a time -/
def text (units : Units) : List UInt8 :=
  TimeToStringCast.clockText units.hour.toNat units.min.toNat units.sec.toNat ++
    if units.micros.toNat = 0 then [] else '.'.toUInt8 :: fractionText units.micros.toNat

/-- The time is not negative, and at most 24 hours. -/
def InRange (time : ℤ) : Prop := 0 ≤ time ∧ time ≤ Interval.microsPerDay

theorem convert_spec {time : ℤ} (h : InRange time) :
    (0 ≤ (convert time).hour ∧ (convert time).hour ≤ 24) ∧ (0 ≤ (convert time).min ∧ (convert time).min < 60) ∧
      (0 ≤ (convert time).sec ∧ (convert time).sec < 60) ∧
      (0 ≤ (convert time).micros ∧ (convert time).micros < 1000000) ∧
      fromTime (convert time).hour (convert time).min (convert time).sec (convert time).micros = time := by
  obtain ⟨hpos, hle⟩ := h
  rw [Interval.microsPerDay] at hle
  rw [convert]
  dsimp only [Interval.microsPerHour, Interval.microsPerMinute, Interval.microsPerSec, fromTime]
  rw [Int.tdiv_eq_ediv_of_nonneg hpos]
  have hmin : 0 ≤ time - time / 3600000000 * 3600000000 := by omega
  rw [Int.tdiv_eq_ediv_of_nonneg hmin]
  have hsec : 0 ≤ time - time / 3600000000 * 3600000000 -
      (time - time / 3600000000 * 3600000000) / 60000000 * 60000000 := by omega
  rw [Int.tdiv_eq_ediv_of_nonneg hsec]
  refine ⟨⟨?_, ?_⟩, ⟨?_, ?_⟩, ⟨?_, ?_⟩, ⟨?_, ?_⟩, ?_⟩ <;> omega

theorem length_fractionText (micros : ℕ) :
    (fractionText micros).length = 6 - TimeToStringCast.trailingZeros ((decimalText 6 micros).map some) 5 := by
  rw [fractionText, length_take, length_decimalText, min_eq_left (Nat.sub_le _ _)]

theorem decimalText_eq_fractionText (micros : ℕ) :
    decimalText 6 micros = fractionText micros ++ replicate (6 - (fractionText micros).length) '0'.toUInt8 := by
  have hlen := length_decimalText 6 micros
  obtain ⟨hle, htake⟩ := TimeToStringCast.trailingZeros_spec (decimalText 6 micros) (by omega : 5 < _)
  rw [length_fractionText, Nat.sub_sub_self (by omega)]
  exact htake

theorem toString_eq {time : ℤ} (h : InRange time) : toString time = some (text (convert time)) := by
  obtain ⟨hhour, hmin, hsec, hmic, -⟩ := convert_spec h
  rw [toString, text]
  set units := convert time
  obtain ⟨hle, -⟩ := TimeToStringCast.trailingZeros_spec (decimalText 6 units.micros.toNat)
    (by rw [length_decimalText]; decide : 5 < _)
  have hlen := length_fractionText units.micros.toNat
  have hbuf : ((decimalText 6 units.micros.toNat).map some).take (fractionText units.micros.toNat).length =
      (fractionText units.micros.toNat).map some := by
    rw [hlen, ← map_take]
    rfl
  obtain ⟨hlong, -⟩ := TimeToStringCast.format_spec (by omega : units.hour.toNat < 100)
    (by omega : units.min.toNat < 100) (by omega : units.sec.toNat < 100) hbuf
  rw [TimeToStringCast.microsLength]
  split_ifs with hz
  · have hno : (TextBuffer.uninitialized 6).take ([] : List UInt8).length = ([] : List UInt8).map some := rfl
    obtain ⟨-, hshort⟩ := TimeToStringCast.format_spec (by omega : units.hour.toNat < 100)
      (by omega : units.min.toNat < 100) (by omega : units.sec.toNat < 100) hno
    simp only [bind_eq_bind, bind_some]
    rw [hshort, bind_some, TextBuffer.text_map_some, append_nil]
  · have hroom : (TextBuffer.uninitialized 6).length = 6 := rfl
    have hpadded := NumericHelper.formatPadded_spec (by decide : 0 < 6)
      (by omega : units.micros.toNat < 10 ^ 6) hroom []
    rw [append_nil, append_nil] at hpadded
    have hfifteen : 15 - TimeToStringCast.trailingZeros ((decimalText 6 units.micros.toNat).map some) 5 =
        9 + (fractionText units.micros.toNat).length := by omega
    rw [TimeToStringCast.formatMicros, hpadded]
    simp only [bind_eq_bind, bind_some, Option.pure_def]
    rw [hfifteen, hlong, bind_some, TextBuffer.text_map_some]

/-- The text is as long as was computed. -/
theorem microsLength_text {time : ℤ} (h : InRange time) :
    ∃ microBuffer, TimeToStringCast.microsLength (convert time).micros.toNat (.uninitialized 6) =
      some ((text (convert time)).length, microBuffer) := by
  obtain ⟨-, -, -, hmic, -⟩ := convert_spec h
  set units := convert time
  have hclock : (TimeToStringCast.clockText units.hour.toNat units.min.toNat units.sec.toNat).length = 8 := by
    simp [TimeToStringCast.clockText]
  rw [TimeToStringCast.microsLength, text, length_append, hclock]
  split_ifs with hz
  · exact ⟨_, rfl⟩
  · obtain ⟨hle, -⟩ := TimeToStringCast.trailingZeros_spec (decimalText 6 units.micros.toNat)
      (by rw [length_decimalText]; decide : 5 < _)
    have hroom : (TextBuffer.uninitialized 6).length = 6 := rfl
    have hpadded := NumericHelper.formatPadded_spec (by decide : 0 < 6)
      (by omega : units.micros.toNat < 10 ^ 6) hroom []
    rw [append_nil, append_nil] at hpadded
    have hlen := length_fractionText units.micros.toNat
    have hfifteen : 15 - TimeToStringCast.trailingZeros ((decimalText 6 units.micros.toNat).map some) 5 =
        8 + ('.'.toUInt8 :: fractionText units.micros.toNat).length := by
      rw [length_cons]
      omega
    rw [TimeToStringCast.formatMicros, hpadded]
    simp only [bind_eq_bind, bind_some, Option.pure_def]
    rw [hfifteen]
    exact ⟨_, rfl⟩

theorem hourLoop_append {digits rest : List UInt8} (hdig : ∀ c ∈ digits, isDigit c = true)
    (hrst : rest.head?.any isDigit = false) {hour n : ℕ} (h : digits.length ≤ n) :
    hourLoop (digits ++ rest) hour n = some (ofDecimal hour digits, rest) := by
  induction digits generalizing hour n with
  | nil =>
    cases rest with
    | nil => rfl
    | cons c rest =>
      have hc : isDigit c = false := hrst
      rw [nil_append, hourLoop.eq_def]
      simp only [hc]
      rfl
  | cons c digits ih =>
    obtain ⟨hc, hdig⟩ := forall_mem_cons.1 hdig
    cases n with
    | zero => exact absurd h (Nat.not_succ_le_zero _)
    | succ n =>
      rw [cons_append, hourLoop, if_pos hc]
      exact ih hdig (Nat.le_of_succ_le_succ h)

/-- A fraction of `k + 1` digits, the last of which may be missing, is read as a number with all of them. -/
theorem microsLoop_eq {digits : List UInt8} (hdig : ∀ c ∈ digits, isDigit c = true) {k : ℕ}
    (h : digits.length ≤ k + 1) (n : ℕ) :
    microsLoop digits (n * 10 ^ (k + 1)) (10 ^ k) = (ofDecimal n digits * 10 ^ (k + 1 - digits.length), []) := by
  induction digits generalizing k n with
  | nil => rfl
  | cons c digits ih =>
    obtain ⟨hc, hdig⟩ := forall_mem_cons.1 hdig
    have hmic : n * 10 ^ (k + 1) + digitValue c * 10 ^ k = (n * 10 + digitValue c) * 10 ^ k := by
      rw [pow_succ', Nat.add_mul, Nat.mul_assoc]
    rw [microsLoop, if_pos hc, if_pos (Nat.pow_pos (by decide)), hmic]
    cases k with
    | zero =>
      rw [length_eq_zero_iff.1 (Nat.le_zero.1 (Nat.le_of_succ_le_succ h))]
      rfl
    | succ k =>
      rw [pow_succ 10 k, Nat.mul_div_cancel _ (by decide), ← pow_succ]
      refine (ih hdig (Nat.le_of_succ_le_succ h) (n * 10 + digitValue c)).trans ?_
      rw [length_cons, Nat.succ_sub_succ]
      rfl

theorem isDigit_of_mem_fractionText {micros : ℕ} {c : UInt8} (h : c ∈ fractionText micros) : isDigit c = true :=
  isDigit_of_mem_decimalText (mem_of_mem_take h)

theorem convertMicros_text {micros : ℕ} (h : micros < 1000000) :
    convertMicros (if micros = 0 then [] else '.'.toUInt8 :: fractionText micros) = (micros, []) := by
  split_ifs with hz
  · rw [hz]
    rfl
  · have hlen : (fractionText micros).length ≤ 6 := length_fractionText micros ▸ Nat.sub_le _ _
    have hloop := microsLoop_eq (fun c hc => isDigit_of_mem_fractionText hc) (k := 5) hlen 0
    -- The zeros that were left out do not change the number.
    have hval : ofDecimal 0 (fractionText micros) * 10 ^ (6 - (fractionText micros).length) = micros := by
      rw [← ofDecimal_replicate, ← ofDecimal_append, ← decimalText_eq_fractionText, ofDecimal_decimalText h]
    rw [convertMicros, if_pos rfl]
    refine hloop.trans ?_
    rw [hval]

theorem convertSixty_decimalText {strict : Bool} {n : ℕ} (h : n < 60) (rest : List UInt8) :
    convertSixty strict (decimalText 2 n ++ rest) = some (n, rest) := by
  have hne : decimalText 2 n ++ rest ≠ [] := by
    exact cons_ne_nil _ _
  rw [convertSixty, if_neg (fun hnil => hne hnil.1), Date.parseDoubleDigit_decimalText (by omega)]
  simp only [bind_eq_bind, bind_some]
  rw [if_neg (by omega)]

theorem tryConvertInternal_text {time : ℤ} (h : InRange time) (strict : Bool) :
    tryConvertInternal strict (text (convert time)) = some (time, []) := by
  obtain ⟨hhour, hmin, hsec, hmic, htime⟩ := convert_spec h
  rw [text, TimeToStringCast.clockText]
  set units := convert time
  obtain ⟨c, digits, hdig, hc⟩ := exists_cons_decimalText (by decide : 0 < 2) units.hour.toNat
  have hloop : ∀ back, hourLoop (decimalText 2 units.hour.toNat ++ ':'.toUInt8 :: back) 0 9 =
      some (units.hour.toNat, ':'.toUInt8 :: back) := by
    intro back
    rw [hourLoop_append (fun c hc => isDigit_of_mem_decimalText hc) rfl (by simp), ofDecimal_decimalText (by omega)]
  have hskip : ∀ back, skipSpaces (decimalText 2 units.hour.toNat ++ back) =
      decimalText 2 units.hour.toNat ++ back := by
    intro back
    rw [hdig, cons_append, skipSpaces_of_isDigit hc]
  have hhead : ∀ back, (decimalText 2 units.hour.toNat ++ back).head?.any isDigit = true := by
    intro back
    rw [hdig]
    exact hc
  have hseconds : ∀ sepPos back,
      convertSeconds strict sepPos (':'.toUInt8 :: (decimalText 2 units.sec.toNat ++ back)) =
        some (units.sec.toNat, back) := by
    intro sepPos back
    rw [convertSeconds, if_neg (not_not.2 rfl), convertSixty_decimalText (by omega)]
  have hrst : (if strict = true then skipSpaces [] else []) = [] := by
    split_ifs <;> rfl
  simp only [append_assoc, cons_append]
  rw [tryConvertInternal, hskip]
  rw [if_neg (not_not.2 (hhead _)), hloop]
  simp only [bind_eq_bind, bind_some, Option.pure_def]
  rw [if_neg (not_not.2 rfl)]
  rw [convertSixty_decimalText (by omega)]
  simp only [bind_some]
  rw [hseconds]
  simp only [bind_some]
  rw [convertMicros_text (by omega)]
  rw [hrst, if_neg (by simp), Int.toNat_of_nonneg hhour.1, Int.toNat_of_nonneg hmin.1,
    Int.toNat_of_nonneg hsec.1, Int.toNat_of_nonneg hmic.1, htime]

end Time

end WfOpt

import WfOpt.Common.TimeText

/-!
# Timestamps as text

A timestamp is written as its date and its time with a space between them. `Timestamp::TryConvertTimestamp` reads a
date, which stops in front of the time or behind `(BC)`, and hands the rest over to the reader of times; a time zone or
an offset may follow. What is written for dates, times and timestamps is read as the same value (`text_roundTrip`).
-/

namespace WfOpt

open StringUtil

namespace StringUtil

def characterIsAlpha (c : UInt8) : Bool :=
  ('a'.toUInt8 ≤ c && c ≤ 'z'.toUInt8) || ('A'.toUInt8 ≤ c && c ≤ 'Z'.toUInt8)

end StringUtil

namespace Timestamp

/-! ## Arithmetic with overflow checks -/

/-- The number fits 64 bits. -/
def InInt64 (n : ℤ) : Prop := -2 ^ 63 ≤ n ∧ n < 2 ^ 63

instance (n : ℤ) : Decidable (InInt64 n) := inferInstanceAs (Decidable (_ ∧ _))

/-- `TryMultiplyOperator` -/
def tryMultiply (x y : ℤ) : Option ℤ := if InInt64 (x * y) then some (x * y) else none

/-- `TryAddOperator` -/
def tryAdd (x y : ℤ) : Option ℤ := if InInt64 (x + y) then some (x + y) else none

/-- `TrySubtractOperator` -/
def trySubtract (x y : ℤ) : Option ℤ := if InInt64 (x - y) then some (x - y) else none

/-! ## Timestamps and their parts -/

def infinity : ℤ := 9223372036854775807

def ninfinity : ℤ := -9223372036854775807

/-- `Timestamp::IsFinite` -/
def isFinite (timestamp : ℤ) : Bool := timestamp ≠ infinity && timestamp ≠ ninfinity

/-- `Timestamp::GetDate`: the division rounds down. -/
def getDate (timestamp : ℤ) : ℤ := if timestamp = infinity then Date.infinity
  else if timestamp = ninfinity then Date.ninfinity
  else
    let negative : ℤ := if timestamp < 0 then 1 else 0
    (timestamp + negative).tdiv Interval.microsPerDay - negative

/-- `Timestamp::GetTime` -/
def getTime (timestamp : ℤ) : ℤ := timestamp - getDate timestamp * Interval.microsPerDay

/-- `Timestamp::Convert`, which throws if the date is out of range -/
def convert (timestamp : ℤ) : Option (ℤ × ℤ) := do
  let date := getDate timestamp
  let daysMicros ← tryMultiply date Interval.microsPerDay
  return (date, timestamp - daysMicros)

/-- `Timestamp::TryFromDatetime` -/
def tryFromDatetime (date time : ℤ) : Option ℤ := do
  let days ← tryMultiply date Interval.microsPerDay
  let result ← tryAdd days time
  if isFinite result then some result else none

/-- `Timestamp::ToString` -/
def toString (timestamp : ℤ) : Option (List UInt8) := if timestamp = infinity then some (ascii "infinity")
  else if timestamp = ninfinity then some (ascii "-infinity")
  else do
    let (date, time) ← convert timestamp
    return (← Date.toString date) ++ ascii " " ++ (← Time.toString time)

/-! ## Reading timestamps -/

/-- The results of `TimestampCastResult` but `SUCCESS` -/
inductive CastError
  | incorrectFormat
  | range
  | nonUtcTimezone
  | strictUtc
  deriving DecidableEq

/-- Two digits -/
def twoDigits : List UInt8 → Option (ℤ × List UInt8)
  | c :: c' :: rest =>
    if isDigit c ∧ isDigit c' then some (digitValue c * 10 + digitValue c', rest) else none
  | _ => none

/-- `Timestamp::TryParseUTCOffset` behind the hours: the minutes and seconds -/
def parseOffsetMinutes (rest : List UInt8) : ℤ × ℤ × List UInt8 := match rest with
  | [] => (0, 0, [])
  | c :: behind =>
    let colonsUsed : Bool := c = ':'.toUInt8
    let minutes := if colonsUsed then behind else c :: behind
    match twoDigits minutes with
    | none => (0, 0, minutes)
    | some (mm, rest) =>
      match rest with
      | [] => (mm, 0, [])
      | c :: seconds =>
        if ¬colonsUsed ∨ c ≠ ':'.toUInt8 then (mm, 0, c :: seconds)
        else
          match twoDigits seconds with
          | none => (mm, 0, seconds)
          | some (ss, rest) => (mm, ss, rest)

/-- `Timestamp::TryParseUTCOffset` -/
def tryParseUtcOffset : List UInt8 → Option (ℤ × ℤ × ℤ × List UInt8)
  | [] => none
  | signChar :: rest =>
    if signChar ≠ '+'.toUInt8 ∧ signChar ≠ '-'.toUInt8 then none
    else do
      let (hh, rest) ← twoDigits rest
      let (mm, ss, rest) := parseOffsetMinutes rest
      if signChar = '-'.toUInt8 then return (-hh, -mm, -ss, rest) else return (hh, mm, ss, rest)

/-- `CharacterIsTimeZone` -/
def characterIsTimeZone (c : UInt8) : Bool :=
  characterIsAlpha c || isDigit c || c = '_'.toUInt8 || c = '/'.toUInt8 || c = '+'.toUInt8 || c = '-'.toUInt8

/-- The results of `TryConvertTimestampTZ` -/
structure Converted where
  result : ℤ
  hasOffset : Bool
  tz : List UInt8
  deriving DecidableEq

/-- `TryConvertTimestampTZ`: what may stand behind the time -/
def convertZone (useOffset : Bool) (result : ℤ) (hasOffset : Bool) :
    List UInt8 → Except CastError (Converted × List UInt8)
  | [] => .ok (⟨result, hasOffset, []⟩, [])
  | c :: rest =>
    if c = 'Z'.toUInt8 then .ok (⟨result, true, []⟩, rest)
    else
      match tryParseUtcOffset (c :: rest) with
      | some (hh, mm, ss, rest) =>
        let delta := hh * Interval.microsPerHour + mm * Interval.microsPerMinute + ss * Interval.microsPerSec
        if useOffset then
          match trySubtract result delta with
          | none => .error .range
          | some result => .ok (⟨result, true, []⟩, rest)
        else .ok (⟨result, true, []⟩, rest)
      | none =>
        if c ≠ ' '.toUInt8 then .error .nonUtcTimezone
        else .ok (⟨result, hasOffset, rest.takeWhile characterIsTimeZone⟩, rest.dropWhile characterIsTimeZone)

/-- `TryConvertTimestampTZ`, if nothing stands behind the date -/
def convertDate (date : ℤ) (special : Bool) : Except CastError Converted :=
  if date = Date.infinity then .ok ⟨infinity, special, []⟩
  else if date = Date.ninfinity then .ok ⟨ninfinity, special, []⟩
  else
    match tryFromDatetime date 0 with
    | none => .error .range
    | some result => .ok ⟨result, special, []⟩

/-- `TryConvertTimestampTZ` behind the date -/
def convertTime (useOffset : Bool) (date : ℤ) (special : Bool) (rest : List UInt8) : Except CastError Converted :=
  match Time.tryConvertInternal false rest with
  | none => .error .incorrectFormat
  | some (time, rest) =>
    if time > Interval.microsPerDay then .error .range
    else
      match tryFromDatetime date time with
      | none => .error .range
      | some result => do
        let (converted, rest) ← convertZone useOffset result special rest
        if skipSpaces rest = [] then .ok converted else .error .incorrectFormat

/-- `TryConvertTimestampTZ` -/
def tryConvertTimestampTz (useOffset : Bool) (str : List UInt8) : Except CastError Converted :=
  match Date.tryConvertDate false str with
  | .error .incorrectFormat => .error .incorrectFormat
  | .error .range => .error .range
  | .ok converted =>
    match converted.rest with
    | [] => convertDate converted.date converted.special
    | c :: rest =>
      convertTime useOffset converted.date converted.special
        (if c = ' '.toUInt8 ∨ c = 'T'.toUInt8 then rest else c :: rest)

/-- `Timestamp::TryConvertTimestamp`: of the time zones only UTC is understood. -/
def tryConvertTimestamp (useOffset strict : Bool) (str : List UInt8) : Except CastError ℤ := do
  let converted ← tryConvertTimestampTz useOffset str
  if converted.tz = [] ∨ converted.tz.map characterToLower = ascii "utc" then
    if strict ∧ converted.hasOffset then throw .strictUtc
    return converted.result
  throw .nonUtcTimezone

end Timestamp

namespace Time

/-- `Time::TryConvertTime`: if it is not strict, then the time of a timestamp is read also. -/
def tryConvertTime (strict : Bool) (buf : List UInt8) : Option ℤ := match tryConvertInternal strict buf with
  | some (time, _) => if time ≤ Interval.microsPerDay then some time else none
  | none =>
    if strict then none
    else
      match Timestamp.tryConvertTimestamp false false buf with
      | .error _ => none
      | .ok timestamp => if Timestamp.isFinite timestamp then some (Timestamp.getTime timestamp) else none

end Time

namespace Timestamp

/-! ## The round trip -/

theorem convert_spec {timestamp date time : ℤ} (hint : InInt64 timestamp) (hfinite : isFinite timestamp = true)
    (h : convert timestamp = some (date, time)) :
    Date.InRange date ∧ Time.InRange time ∧ tryFromDatetime date time = some timestamp := by
  rw [isFinite, Bool.and_eq_true, decide_eq_true_iff, decide_eq_true_iff] at hfinite
  have hdate : getDate timestamp = timestamp / Interval.microsPerDay := by
    rw [getDate, if_neg hfinite.1, if_neg hfinite.2, Interval.microsPerDay]
    dsimp only
    split_ifs with hneg
    · have htdiv := Int.neg_tdiv (a := -(timestamp + 1)) (b := 86400000000)
      rw [neg_neg, Int.tdiv_eq_ediv_of_nonneg (by omega : 0 ≤ -(timestamp + 1))] at htdiv
      omega
    · rw [add_zero, sub_zero, Int.tdiv_eq_ediv_of_nonneg (by omega)]
  rw [convert, hdate, tryMultiply] at h
  by_cases hdays : InInt64 (timestamp / Interval.microsPerDay * Interval.microsPerDay)
  · rw [if_pos hdays] at h
    obtain ⟨rfl, rfl⟩ := h
    have hadd : timestamp / Interval.microsPerDay * Interval.microsPerDay +
        (timestamp - timestamp / Interval.microsPerDay * Interval.microsPerDay) = timestamp := by omega
    refine ⟨?_, ?_, ?_⟩
    · rw [InInt64] at hint
      rw [Date.InRange, Date.infinity, Date.ninfinity, Interval.microsPerDay]
      omega
    · rw [Time.InRange, Interval.microsPerDay]
      omega
    · rw [tryFromDatetime, tryMultiply, if_pos hdays]
      simp only [Option.bind_eq_bind, Option.bind_some]
      rw [tryAdd, hadd, if_pos hint, Option.bind_some, isFinite, decide_eq_true hfinite.1, decide_eq_true hfinite.2]
      rfl
  · rw [if_neg hdays] at h
    cases h

theorem exists_cons_timeText (units : Time.Units) : ∃ c rest, Time.text units = c :: rest ∧ isDigit c = true := by
  obtain ⟨c, digits, hdig, hc⟩ := exists_cons_decimalText (by decide : 0 < 2) units.hour.toNat
  rw [Time.text, TimeToStringCast.clockText, hdig]
  exact ⟨c, _, rfl, hc⟩

theorem tryConvertTimestamp_text {timestamp date time : ℤ} (hdate : Date.InRange date) (htime : Time.InRange time)
    (h : tryFromDatetime date time = some timestamp) (useOffset strict : Bool) :
    tryConvertTimestamp useOffset strict
      (Date.text (Date.convert date) ++ ' '.toUInt8 :: Time.text (Time.convert time)) = .ok timestamp := by
  obtain ⟨c, rest, hcons, hc⟩ := exists_cons_timeText (Time.convert time)
  have hends : Date.Ends (' '.toUInt8 :: Time.text (Time.convert time)) := by
    refine .inr ⟨c, rest, hcons ▸ rfl, ?_⟩
    rintro rfl
    exact absurd hc (by decide)
  have htz : tryConvertTimestampTz useOffset
      (Date.text (Date.convert date) ++ ' '.toUInt8 :: Time.text (Time.convert time)) =
        .ok ⟨timestamp, false, []⟩ := by
    rw [tryConvertTimestampTz, Date.tryConvertDate_text hdate hends (fun h : false = true => nomatch h)]
    dsimp only
    rw [if_pos (.inl rfl), convertTime, Time.tryConvertInternal_text htime]
    dsimp only
    rw [if_neg (not_lt.2 htime.2), h]
    rfl
  rw [tryConvertTimestamp, htz]
  simp only [bind, Except.bind, pure, Except.pure, true_or, if_true, Bool.false_eq_true, and_false, if_false]

theorem tryConvertTimestamp_infinity (useOffset : Bool) :
    tryConvertTimestamp useOffset false (ascii "infinity") = .ok infinity ∧
      tryConvertTimestamp useOffset false (ascii "-infinity") = .ok ninfinity := by
  cases useOffset <;> decide

end Timestamp

/-- Dates, times and timestamps are written in as many characters as were computed, and are read back. -/
theorem text_roundTrip : (∀ date, date = Date.infinity ∨ date = Date.ninfinity ∨ Date.InRange date →
      ∃ text, Date.toString date = some text ∧
        (Date.InRange date → text.length = (DateToStringCast.yearLength (Date.convert date).year).length) ∧
        ∀ strict, ∃ special, Date.tryConvertDate strict text = .ok ⟨date, special, []⟩) ∧
    (∀ time, Time.InRange time → ∃ text, Time.toString time = some text ∧
        (∃ microBuffer, TimeToStringCast.microsLength (Time.convert time).micros.toNat (.uninitialized 6) =
          some (text.length, microBuffer)) ∧
        ∀ strict, Time.tryConvertTime strict text = some time) ∧
    ∀ timestamp, Timestamp.InInt64 timestamp → timestamp = Timestamp.infinity ∨ timestamp = Timestamp.ninfinity ∨
        (Timestamp.convert timestamp).isSome = true →
      ∃ text, Timestamp.toString timestamp = some text ∧
        ∀ useOffset, Timestamp.tryConvertTimestamp useOffset false text = .ok timestamp := by
  refine ⟨?_, ?_, ?_⟩
  · rintro date (rfl | rfl | hrng)
    · exact ⟨_, rfl, fun h => absurd h.2 (lt_irrefl _), fun strict => ⟨true, (Date.tryConvertDate_infinity strict).1⟩⟩
    · exact ⟨_, rfl, fun h => absurd h.1 (lt_irrefl _), fun strict => ⟨true, (Date.tryConvertDate_infinity strict).2⟩⟩
    · refine ⟨_, Date.toString_eq hrng, fun _ => Date.length_text hrng, fun strict => ⟨false, ?_⟩⟩
      have hrd := Date.tryConvertDate_text hrng (.inl rfl) (fun _ : strict = true => rfl)
      rwa [List.append_nil] at hrd
  · intro time hrng
    refine ⟨_, Time.toString_eq hrng, Time.microsLength_text hrng, fun strict => ?_⟩
    rw [Time.tryConvertTime, Time.tryConvertInternal_text hrng]
    exact if_pos hrng.2
  · rintro timestamp hint hcs
    by_cases hinf : timestamp = Timestamp.infinity
    · rw [hinf]
      exact ⟨_, rfl, fun useOffset => (Timestamp.tryConvertTimestamp_infinity useOffset).1⟩
    by_cases hninf : timestamp = Timestamp.ninfinity
    · rw [hninf]
      exact ⟨_, rfl, fun useOffset => (Timestamp.tryConvertTimestamp_infinity useOffset).2⟩
    obtain ⟨⟨date, time⟩, hconv⟩ := Option.isSome_iff_exists.1 ((hcs.resolve_left hinf).resolve_left hninf)
    have hfinite : Timestamp.isFinite timestamp = true := by
      rw [Timestamp.isFinite, decide_eq_true hinf, decide_eq_true hninf]
      rfl
    obtain ⟨hdate, htime, hdatetime⟩ := Timestamp.convert_spec hint hfinite hconv
    refine ⟨Date.text (Date.convert date) ++ ' '.toUInt8 :: Time.text (Time.convert time), ?_,
      fun useOffset => Timestamp.tryConvertTimestamp_text hdate htime hdatetime useOffset false⟩
    rw [Timestamp.toString, if_neg hinf, if_neg hninf, hconv]
    simp only [Option.bind_eq_bind, Option.bind_some]
    rw [Date.toString_eq hdate, Time.toString_eq htime]
    simp only [List.append_assoc]
    rfl

theorem text_roundTrip_epoch : ∃ text, Date.toString 0 = some text ∧
    (Date.InRange 0 → text.length = (DateToStringCast.yearLength (Date.convert 0).year).length) ∧
    ∀ strict, ∃ special, Date.tryConvertDate strict text = .ok ⟨0, special, []⟩ :=
  text_roundTrip.1 0 (.inr (.inr ⟨by decide, by decide⟩))

end WfOpt

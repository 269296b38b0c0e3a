import WfOpt.Common.CastHelpers
import WfOpt.Common.Date

/-!
# Dates as text

`Date::ToString` writes a date into a buffer whose length was computed before, and `Date::TryConvertDate` reads it.
What is written is the digits of the year, the month and the day (`Date.toString_eq`), and it is read as the date again
(`Date.tryConvertDate_dateText`), also if a time stands behind it, in front of which the reader stops.
-/

namespace WfOpt

open List StringUtil

/-! ## Writing dates -/

namespace DateToStringCast

/-- What `DateToStringCast::Length` computes: both lengths, the year that is written, and whether `(BC)` is added. -/
structure DateLength where
  length : ℕ
  yearLength : ℕ
  year : ℤ
  addBc : Bool

/-- `DateToStringCast::YearLength` -/
def yearLength (year : ℤ) : DateLength := let addBc : Bool := year ≤ 0
  let length := if addBc then 6 + 5 else 6
  let year := if addBc then -year + 1 else year
  let yearLength := 4 + (if year ≥ 10000 then 1 else 0) + (if year ≥ 100000 then 1 else 0) +
    (if year ≥ 1000000 then 1 else 0) + (if year ≥ 10000000 then 1 else 0)
  ⟨length + yearLength, yearLength, year, addBc⟩

/-- `DateToStringCast::FormatComponent` -/
def formatComponent (number ptr : ℕ) (buffer : TextBuffer) : Option (ℕ × TextBuffer) := do
  let buffer ← buffer.write ptr '-'.toUInt8
  if number < 10 then
    let buffer ← buffer.write (ptr + 1) '0'.toUInt8
    return (ptr + 3, ← buffer.write (ptr + 2) (digitChar number))
  else
    let buffer ← buffer.write (ptr + 1) (NumericHelper.digits.getD (number * 2) 0)
    return (ptr + 3, ← buffer.write (ptr + 2) (NumericHelper.digits.getD (number * 2 + 1) 0))

/-- `DateToStringCast::Format` -/
def format (buffer : TextBuffer) (year month day yearLength : ℕ) (addBc : Bool) : Option TextBuffer := do
  let buffer ← NumericHelper.formatPadded year yearLength buffer
  let (ptr, buffer) ← formatComponent month yearLength buffer
  let (ptr, buffer) ← formatComponent day ptr buffer
  if addBc then buffer.writeAll ptr (ascii " (BC)") else return buffer

end DateToStringCast

/-! ### What is written -/

namespace DateToStringCast

theorem formatComponent_spec {number : ℕ} (h : number < 100) (front : TextBuffer) (x y z : Option UInt8)
    (back : TextBuffer) :
    formatComponent number front.length (front ++ x :: y :: z :: back) =
      some (front.length + 3, front ++ ('-'.toUInt8 :: decimalText 2 number).map some ++ back) := by
  obtain ⟨hfst, hsnd⟩ := NumericHelper.digits_getD h
  have hzero : '0'.toUInt8 = digitChar 0 := rfl
  -- The second and the third character are written one after the other.
  have hwrt : ∀ c₁ c₂, (do
      let buffer ← TextBuffer.write (front ++ some '-'.toUInt8 :: y :: z :: back) (front.length + 1) c₁
      return (front.length + 3, ← buffer.write (front.length + 2) c₂)) =
        some (front.length + 3, front ++ some '-'.toUInt8 :: some c₁ :: some c₂ :: back) := by
    intro c₁ c₂
    have hy := TextBuffer.write_append (front ++ [some '-'.toUInt8]) y (z :: back) c₁
    have hz := TextBuffer.write_append (front ++ [some '-'.toUInt8, some c₁]) z back c₂
    simp only [length_append, length_cons, length_nil, append_assoc, cons_append,
      nil_append, Nat.zero_add, Nat.reduceAdd] at hy hz
    rw [hy]
    simp only [Option.bind_eq_bind, Option.bind_some]
    rw [hz]
    rfl
  rw [formatComponent, TextBuffer.write_append]
  split_ifs with hsm
  · refine (hwrt _ _).trans ?_
    rw [decimalText_two h, Nat.div_eq_of_lt hsm, Nat.mod_eq_of_lt hsm, hzero]
    simp
  · refine (hwrt _ _).trans ?_
    rw [hfst, hsnd, decimalText_two h]
    simp

/-- A buffer of the length of a date is filled by its text. -/
theorem format_spec {year month day w : ℕ} (hw : 0 < w) (hyear : year < 10 ^ w) (hmon : month < 100)
    (hday : day < 100) (addBc : Bool) :
    format (.uninitialized (6 + (if addBc then 5 else 0) + w)) year month day w addBc =
      some ((decimalText w year ++ '-'.toUInt8 :: decimalText 2 month ++ '-'.toUInt8 :: decimalText 2 day ++
        if addBc then ascii " (BC)" else []).map some) := by
  set bc : ℕ := if addBc then 5 else 0
  have hbuf : TextBuffer.uninitialized (6 + bc + w) =
      replicate w none ++ none :: none :: none :: none :: none :: none :: replicate bc none := by
    rw [TextBuffer.uninitialized, Nat.add_comm, replicate_add, Nat.add_comm 6 bc]
    rfl
  have hlen : ((decimalText w year).map some).length = w := by rw [length_map, length_decimalText]
  have hmonthSpec := formatComponent_spec hmon ((decimalText w year).map some) none none none
  have hlen' : ((decimalText w year).map some ++ ('-'.toUInt8 :: decimalText 2 month).map some).length =
      w + 3 := by simp
  have hdaySpec := formatComponent_spec hday
    ((decimalText w year).map some ++ ('-'.toUInt8 :: decimalText 2 month).map some) none none none
  rw [hlen] at hmonthSpec
  rw [hlen'] at hdaySpec
  rw [format, hbuf, NumericHelper.formatPadded_spec hw hyear (length_replicate)]
  simp only [Option.bind_eq_bind, Option.bind_some]
  rw [hmonthSpec]
  simp only [Option.bind_some]
  rw [hdaySpec]
  cases addBc with
  | false => simp [bc]
  | true =>
    have hroom : (replicate 5 (none : Option UInt8)).length = (ascii " (BC)").length := rfl
    have hbc := TextBuffer.writeAll_append hroom
      ((decimalText w year).map some ++ ('-'.toUInt8 :: decimalText 2 month).map some ++
        ('-'.toUInt8 :: decimalText 2 day).map some) []
    have hfive : bc = 5 := rfl
    rw [hfive]
    refine Eq.trans ?_ (hbc.trans ?_)
    · simp
    · simp

end DateToStringCast

namespace Date

/-- `Date::ToString` -/
def toString (date : ℤ) : Option (List UInt8) := if date = infinity then some (ascii "infinity")
  else if date = ninfinity then some (ascii "-infinity")
  else do
    let parts := convert date
    let length := DateToStringCast.yearLength parts.year
    let buffer ← DateToStringCast.format (.uninitialized length.length) length.year.toNat parts.month.toNat
      parts.day.toNat length.yearLength length.addBc
    buffer.text

/-! ## Reading dates -/

/-- The errors of `DateCastResult` -/
inductive CastError
  | incorrectFormat
  | range
  deriving DecidableEq

/-- A date that was read, whether it was a special value, and what stands behind it -/
structure Converted where
  date : ℤ
  special : Bool
  rest : List UInt8
  deriving DecidableEq

/-- `Date::ParseDoubleDigit` -/
def parseDoubleDigit : List UInt8 → Option (ℕ × List UInt8)
  | [] => none
  | c :: rest =>
    if isDigit c then
      match rest with
      | [] => some (digitValue c, [])
      | c' :: rest' =>
        if isDigit c' then some (digitValue c' + digitValue c * 10, rest') else some (digitValue c, c' :: rest')
    else none

/-- The loop of `Date::TryConvertDateSpecial`: the rests, and how many characters were equal -/
def specialLoop : List UInt8 → List UInt8 → ℕ → Option (List UInt8 × List UInt8 × ℕ)
  | c :: buf, s :: special, p => if characterToLower c ≠ s then none else specialLoop buf special (p + 1)
  | buf, special, p => some (buf, special, p)

/-- `Date::TryConvertDateSpecial` -/
def tryConvertDateSpecial (buf special : List UInt8) (abbr : ℕ) : Option (List UInt8) := do
  let (buf, special, p) ← specialLoop buf special 0
  if special ≠ [] ∧ p ≠ abbr then none else some buf

/-- `Date::TryConvertDate` for special values -/
def convertSpecial (yearneg : Bool) (buf : List UInt8) : Except CastError Converted :=
  let result :=
    match tryConvertDateSpecial buf (ascii "infinity") 3 with
    | some rest => some (if yearneg then ninfinity else infinity, rest)
    | none => (tryConvertDateSpecial buf (ascii "epoch") 5).map fun rest => (0, rest)
  match result with
  | none => .error .incorrectFormat
  | some (date, rest) => if skipSpaces rest = [] then .ok ⟨date, true, []⟩ else .error .incorrectFormat

/-- The loop over the digits of the year, which fails if there are too many -/
def yearLoop : List UInt8 → ℕ → ℕ → Option (ℕ × ℕ × List UInt8)
  | [], year, yearLength => some (year, yearLength, [])
  | c :: buf, year, yearLength =>
    if isDigit c then
      if 100000000 ≤ year then none else yearLoop buf (digitValue c + year * 10) (yearLength + 1)
    else some (year, yearLength, c :: buf)

/-- The optional trailing ` (BC)` -/
def convertBc (yearneg : Bool) (year : ℤ) : List UInt8 → Except CastError (ℤ × List UInt8)
  | c :: c₁ :: c₂ :: c₃ :: c₄ :: rest =>
    if characterIsSpace c ∧ c₁ = '('.toUInt8 ∧ characterToLower c₂ = 'b'.toUInt8 ∧
        characterToLower c₃ = 'c'.toUInt8 ∧ c₄ = ')'.toUInt8 then
      if yearneg ∨ year = 0 then .error .incorrectFormat else .ok (-year + 1, rest)
    else .ok (year, c :: c₁ :: c₂ :: c₃ :: c₄ :: rest)
  | rest => .ok (year, rest)

/-- `Date::TryConvertDate` after the day -/
def convertEnd (strict yearneg : Bool) (year : ℤ) (month day : ℕ) (buf : List UInt8) :
    Except CastError Converted := do
  let (year, rest) ← convertBc yearneg year buf
  let rest := if strict then skipSpaces rest else rest
  if strict ∧ rest ≠ [] then throw .incorrectFormat
  if ¬strict ∧ rest.head?.any isDigit then throw .incorrectFormat
  match tryFromDate year month day with
  | none => throw .range
  | some date => return ⟨date, false, rest⟩

/-- `Date::TryConvertDate` from the first digit on -/
def convertParts (strict yearneg : Bool) (buf : List UInt8) : Except CastError Converted :=
  match yearLoop buf 0 0 with
  | none => .error .range
  | some (year, yearLength, rest) =>
    if yearLength < 2 ∧ strict then .error .incorrectFormat
    else
      match rest with
      | [] => .error .incorrectFormat
      | sep :: rest =>
        if sep ≠ ' '.toUInt8 ∧ sep ≠ '-'.toUInt8 ∧ sep ≠ '/'.toUInt8 ∧ sep ≠ '\\'.toUInt8 then
          .error .incorrectFormat
        else
          match parseDoubleDigit rest with
          | none => .error .incorrectFormat
          | some (_, []) => .error .incorrectFormat
          | some (month, c :: rest) =>
            if c ≠ sep then .error .incorrectFormat
            else
              match parseDoubleDigit rest with
              | none => .error .incorrectFormat
              | some (day, rest) => convertEnd strict yearneg (if yearneg then -year else year) month day rest

/-- `Date::TryConvertDate` -/
def tryConvertDate (strict : Bool) (buf : List UInt8) : Except CastError Converted := match skipSpaces buf with
  | [] => .error .incorrectFormat
  | c :: rest =>
    let yearneg : Bool := c = '-'.toUInt8
    match if yearneg then rest else c :: rest with
    | [] => .error .incorrectFormat
    | c :: rest => if isDigit c then convertParts strict yearneg (c :: rest) else convertSpecial yearneg (c :: rest)

/-- The text of a date -/
def text (parts : Parts) : List UInt8 := let length := DateToStringCast.yearLength parts.year
  decimalText length.yearLength length.year.toNat ++ '-'.toUInt8 :: decimalText 2 parts.month.toNat ++
    '-'.toUInt8 :: decimalText 2 parts.day.toNat ++ if length.addBc then ascii " (BC)" else []

/-- The year that is written has as many digits as were counted. -/
theorem yearLength_spec {year : ℤ} (hmin : minYear ≤ year) (hmax : year ≤ maxYear) :
    ((DateToStringCast.yearLength year).length = 6 +
        (if (DateToStringCast.yearLength year).addBc then 5 else 0) + (DateToStringCast.yearLength year).yearLength) ∧
      (4 ≤ (DateToStringCast.yearLength year).yearLength ∧ (DateToStringCast.yearLength year).yearLength ≤ 7) ∧
      (DateToStringCast.yearLength year).year.toNat < 10 ^ (DateToStringCast.yearLength year).yearLength ∧
      (1 ≤ (DateToStringCast.yearLength year).year) ∧
      ((DateToStringCast.yearLength year).addBc = true → -(DateToStringCast.yearLength year).year + 1 = year) ∧
      ((DateToStringCast.yearLength year).addBc = false → (DateToStringCast.yearLength year).year = year) := by
  rw [minYear] at hmin
  rw [maxYear] at hmax
  rw [DateToStringCast.yearLength]
  by_cases hbc : year ≤ 0
  · simp only [hbc, decide_true, if_true]
    refine ⟨trivial, ?_, ?_, by omega, fun _ => by omega, fun h => by cases h⟩
    · split_ifs <;> omega
    · split_ifs <;> norm_num <;> omega
  · simp only [hbc, decide_false, Bool.false_eq_true, if_false]
    refine ⟨trivial, ?_, ?_, by omega, False.elim, fun _ => trivial⟩
    · split_ifs <;> omega
    · split_ifs <;> norm_num <;> omega

/-- A date is written as its text, which fills the buffer. -/
theorem toString_eq {d : ℤ} (h : InRange d) : toString d = some (text (convert d)) := by
  obtain ⟨⟨hmin, hmax⟩, ⟨hmon, hmon'⟩, hday, hday'⟩ := parts_convert h
  obtain ⟨hlen, ⟨hw, -⟩, hyear, -⟩ := yearLength_spec hmin hmax
  rw [toString, if_neg h.2.ne, if_neg h.1.ne']
  dsimp only
  rw [hlen, DateToStringCast.format_spec (by omega) hyear (by omega) (by omega)]
  exact TextBuffer.text_map_some _

/-- The text is as long as was computed. -/
theorem length_text {d : ℤ} (h : InRange d) :
    (text (convert d)).length = (DateToStringCast.yearLength (convert d).year).length := by
  obtain ⟨⟨hmin, hmax⟩, -⟩ := parts_convert h
  obtain ⟨hlen, -⟩ := yearLength_spec hmin hmax
  rw [hlen, text]
  set addBc := (DateToStringCast.yearLength (convert d).year).addBc
  have hbc : (if addBc then ascii " (BC)" else []).length = if addBc then 5 else 0 := by
    cases addBc <;> rfl
  simp only [length_append, length_cons, length_decimalText]
  omega

/-! ### What is read -/

/-- What stands behind a date: nothing, or a space and something else than `(` -/
def Ends (rest : List UInt8) : Prop := rest = [] ∨ ∃ c rest', rest = ' '.toUInt8 :: c :: rest' ∧ c ≠ '('.toUInt8

variable {rest : List UInt8}

theorem Ends.no_digit (h : Ends rest) : rest.head?.any isDigit = false := by
  rcases h with rfl | ⟨c, rest', rfl, -⟩
  · rfl
  · rfl

theorem yearLoop_append {digits rest : List UInt8} (hdig : ∀ c ∈ digits, isDigit c = true)
    (hrst : rest.head?.any isDigit = false) {year : ℕ} (h : ofDecimal year digits < 1000000000) (yearLength : ℕ) :
    yearLoop (digits ++ rest) year yearLength = some (ofDecimal year digits, yearLength + digits.length, rest) := by
  induction digits generalizing year yearLength with
  | nil =>
    cases rest with
    | nil => rfl
    | cons c rest =>
      have hc : isDigit c = false := hrst
      rw [nil_append, yearLoop, hc]
      rfl
  | cons c digits ih =>
    obtain ⟨hc, hdig⟩ := forall_mem_cons.1 hdig
    have hle : year * 10 + digitValue c ≤ ofDecimal year (c :: digits) := le_ofDecimal digits _
    rw [cons_append, yearLoop, if_pos hc, if_neg (by omega), Nat.add_comm (digitValue c)]
    refine (ih hdig h (yearLength + 1)).trans ?_
    rw [length_cons, Nat.add_right_comm, Nat.add_assoc]
    rfl

theorem parseDoubleDigit_decimalText {n : ℕ} (h : n < 100) (rest : List UInt8) :
    parseDoubleDigit (decimalText 2 n ++ rest) = some (n, rest) := by
  have hten : n / 10 < 10 := Nat.div_lt_of_lt_mul h
  have hone := Nat.mod_lt n (by decide : 0 < 10)
  rw [decimalText_two h]
  simp only [cons_append, nil_append, parseDoubleDigit, isDigit_digitChar hten, isDigit_digitChar hone,
    if_true, digitValue_digitChar hten, digitValue_digitChar hone]
  rw [Nat.mod_add_div']

/-- The end of a date is read, whether it is before Christ or not. -/
theorem convertEnd_spec {strict addBc : Bool} {year : ℤ} {month day : ℕ} (hrst : Ends rest)
    (hstr : strict = true → rest = []) (hyear : addBc = true → year ≠ 0) {date : ℤ}
    (hdate : tryFromDate (if addBc then -year + 1 else year) month day = some date) :
    convertEnd strict false year month day ((if addBc then ascii " (BC)" else []) ++ rest) =
      .ok ⟨date, false, rest⟩ := by
  have hbc : convertBc false year ((if addBc then ascii " (BC)" else []) ++ rest) =
      .ok (if addBc then -year + 1 else year, rest) := by
    cases addBc with
    | true =>
      have htext : ascii " (BC)" ++ rest =
          ' '.toUInt8 :: '('.toUInt8 :: 'B'.toUInt8 :: 'C'.toUInt8 :: ')'.toUInt8 :: rest := rfl
      rw [if_pos rfl, htext, convertBc, if_pos (by decide), if_neg (by simpa using hyear rfl)]
      rfl
    | false =>
      rcases hrst with rfl | ⟨c, rest', rfl, hc⟩
      · rfl
      · match rest' with
        | [] => rfl
        | [_] => rfl
        | [_, _] => rfl
        | c₂ :: c₃ :: c₄ :: rest' =>
          rw [if_neg Bool.false_ne_true, nil_append, convertBc, if_neg (by simp [hc])]
          rfl
  have hskip : (if strict = true then skipSpaces rest else rest) = rest := by
    split_ifs with h
    · rw [hstr h]
      rfl
    · rfl
  rw [convertEnd, hbc]
  simp only [Except.bind, bind, pure, Except.pure]
  rw [hskip, if_neg (by simpa using hstr), if_neg (by simp [hrst.no_digit])]
  simp only [hdate]

/-- The parts of a date are read up to what stands behind it. -/
theorem convertParts_text {strict : Bool} {parts : Parts} (hmin : minYear ≤ parts.year)
    (hmax : parts.year ≤ maxYear) (hmon : 1 ≤ parts.month ∧ parts.month ≤ 12)
    (hday : 1 ≤ parts.day ∧ parts.day ≤ 31) (hrst : Ends rest)
    (hstr : strict = true → rest = []) {date : ℤ}
    (hdate : tryFromDate parts.year parts.month parts.day = some date) :
    convertParts strict false (text parts ++ rest) = .ok ⟨date, false, rest⟩ := by
  obtain ⟨-, ⟨hw, hw'⟩, hyear, hpos, hbc, hnotBc⟩ := yearLength_spec hmin hmax
  rw [text]
  set length := DateToStringCast.yearLength parts.year
  have hval := ofDecimal_decimalText hyear
  have hbd : (10 : ℕ) ^ length.yearLength ≤ 10 ^ 7 := Nat.pow_le_pow_right (by decide) hw'
  -- The digits of the year end at the first dash.
  have hloop : ∀ back, yearLoop (decimalText length.yearLength length.year.toNat ++ '-'.toUInt8 :: back) 0 0 =
      some (length.year.toNat, length.yearLength, '-'.toUInt8 :: back) := by
    intro back
    have hdig : ∀ c ∈ decimalText length.yearLength length.year.toNat, isDigit c = true :=
      fun c hc => isDigit_of_mem_decimalText hc
    rw [yearLoop_append hdig rfl (by omega), hval, length_decimalText, Nat.zero_add]
  have hyearNat : ((length.year.toNat : ℕ) : ℤ) = length.year := Int.toNat_of_nonneg (by omega)
  have hdate' : tryFromDate (if length.addBc then -((length.year.toNat : ℕ) : ℤ) + 1 else length.year.toNat)
      (parts.month.toNat : ℕ) (parts.day.toNat : ℕ) = some date := by
    have hyear' : (if length.addBc then -((length.year.toNat : ℕ) : ℤ) + 1 else length.year.toNat) = parts.year := by
      rw [hyearNat]
      cases haddBc : length.addBc with
      | true => exact hbc haddBc
      | false => exact hnotBc haddBc
    rw [hyear', Int.toNat_of_nonneg (by omega), Int.toNat_of_nonneg (by omega), hdate]
  have hend := convertEnd_spec hrst hstr (fun _ => by omega) hdate'
  simp only [append_assoc, cons_append]
  rw [convertParts, hloop]
  dsimp only
  rw [if_neg (by omega), if_neg (by decide), parseDoubleDigit_decimalText (by omega)]
  dsimp only
  rw [if_neg (not_not.2 rfl), parseDoubleDigit_decimalText (by omega)]
  exact hend

/-- The text of a date is read as the date, up to what stands behind it. -/
theorem tryConvertDate_text {d : ℤ} (h : InRange d) {strict : Bool} (hrst : Ends rest)
    (hstr : strict = true → rest = []) :
    tryConvertDate strict (text (convert d) ++ rest) = .ok ⟨d, false, rest⟩ := by
  obtain ⟨⟨hmin, hmax⟩, hmon, hday⟩ := parts_convert h
  have hpts := convertParts_text hmin hmax hmon hday hrst hstr (tryFromDate_convert h)
  obtain ⟨-, ⟨hw, -⟩, -⟩ := yearLength_spec hmin hmax
  obtain ⟨c, digits, hdig, hc⟩ := exists_cons_decimalText (lt_of_lt_of_le (by decide) hw)
    (DateToStringCast.yearLength (convert d).year).year.toNat
  have hcons : ∃ back, text (convert d) ++ rest = c :: back := by
    rw [text, hdig]
    exact ⟨_, rfl⟩
  obtain ⟨back, hback⟩ := hcons
  have hdash : (c = '-'.toUInt8 : Bool) = false := by
    refine decide_eq_false ?_
    rintro rfl
    exact absurd hc (by decide)
  rw [hback] at hpts ⊢
  rw [tryConvertDate, skipSpaces_of_isDigit hc]
  dsimp only
  rw [hdash, if_neg Bool.false_ne_true]
  dsimp only
  rw [if_pos hc, hpts]

theorem tryConvertDate_infinity (strict : Bool) :
    tryConvertDate strict (ascii "infinity") = .ok ⟨infinity, true, []⟩ ∧
      tryConvertDate strict (ascii "-infinity") = .ok ⟨ninfinity, true, []⟩ := by
  cases strict <;> decide

end Date

end WfOpt

import WfOpt.Common.Date

/-!
# Dates of the calendar

`Date::TryFromDate` gives the count of a calendar date, if this is one of those a `date_t` can hold, and `Date::Convert`
gives the only calendar date with a count. What they compute on the way has 32 bits and is in the tables
(`follows_calendar`).
-/

namespace WfOpt.Date

set_option maxRecDepth 10000

open Calendar List

/-- `ExtractYear` -/
def extractYear (d : ℤ) : ℤ := (extractYearOffset d).year

/-- `ExtractDayOfTheYear` -/
def extractDayOfTheYear (d : ℤ) : ℤ :=
  (extractYearOffset d).n - cumulativeYearDays.getD (extractYearOffset d).yearOffset 0 + 1

/-- The numbers that `Date::TryFromDate` computes on the way -/
def fromDateSteps (year month day : ℤ) : List ℤ :=
  let days := if isLeapYear year then cumulativeLeapDays else cumulativeDays
  let n := days.getD (month - 1).toNat 0 + (day - 1)
  if year < 1970 then
    let diffFromBase := 1970 - year
    let yearIndex := 400 - diffFromBase % 400
    let fractions := diffFromBase / 400
    let n' := n + cumulativeYearDays.getD yearIndex.toNat 0
    [n, diffFromBase, yearIndex, n', n' - daysPerYearInterval, fractions * daysPerYearInterval,
      n' - daysPerYearInterval - fractions * daysPerYearInterval]
  else if year ≥ 2370 then
    let diffFromBase := year - 2370
    let yearIndex := diffFromBase % 400
    let fractions := diffFromBase / 400
    let n' := n + cumulativeYearDays.getD yearIndex.toNat 0
    [n, diffFromBase, yearIndex, n', n' + daysPerYearInterval, fractions * daysPerYearInterval,
      n' + daysPerYearInterval + fractions * daysPerYearInterval]
  else [n, year - 1970, n + cumulativeYearDays.getD (year - 1970).toNat 0]

/-- The indices at which `Date::Convert` reads its tables, with their sizes: from the first one down to the second
    one. -/
def convertIndices (d : ℤ) : List (ℤ × ℕ) := let offset := extractYearOffset d
  let day := offset.n - cumulativeYearDays.getD offset.yearOffset 0
  [(offset.n / 365, cumulativeYearDays.length), (offset.yearOffset, cumulativeYearDays.length),
    (offset.yearOffset + 1, cumulativeYearDays.length),
    (day, (if isLeapYear offset.year then leapMonthPerDayOfYear else monthPerDayOfYear).length),
    ((convert d).month - 1, (if isLeapYear offset.year then cumulativeLeapDays else cumulativeDays).length)]

/-- From the first date to the last one -/
def InBounds (year month day : ℤ) : Prop :=
  ¬Before year month day minYear minMonth minDay ∧ ¬Before maxYear maxMonth maxDay year month day

/-! ## The tables -/

theorem exists_yearOfInterval (year : ℤ) : ∃ (q : ℤ) (i : ℕ), i < 400 ∧ year = epochYear + yearInterval * q + i :=
  ⟨(year - 1970) / 400, ((year - 1970) % 400).toNat, by omega, by rw [epochYear, yearInterval]; omega⟩

theorem yearBegin_eq (year : ℤ) : yearBegin year = newYear year := by
  obtain ⟨q, i, hi, rfl⟩ := exists_yearOfInterval year
  rw [yearBegin_interval q hi, daysBefore_eq hi.le, newYear, newYear, daysPerYearInterval, epochYear, yearInterval]
  omega

theorem monthTable_eq : ∀ leap, ∀ k < 12, monthBegin leap k = daysBeforeMonth leap ((k : ℕ) + 1) ∧
    monthDays leap (k + 1) = monthLength leap ((k : ℕ) + 1) := by
  decide

theorem isValid_iff {year month day : ℤ} :
    isValid year month day = true ↔ IsDate year month day ∧ InBounds year month day := by
  by_cases hmon : 1 ≤ month ∧ month ≤ 12
  · obtain ⟨k, hk, rfl⟩ := exists_month hmon
    have hlen := (monthTable_eq (isLeapYear year) k hk).2
    rw [isValid, IsDate, InBounds, Before, Before, isLeap, ← isLeapYear, ← hlen, monthDays]
    have hidx : ((k : ℤ) + 1).toNat = k + 1 := by omega
    rw [hidx]
    cases isLeapYear year <;> simp only [Bool.false_eq_true] <;> split_ifs <;>
      simp only [Bool.and_eq_true, Bool.or_eq_true, decide_eq_true_eq, false_iff] at * <;> omega
  · rw [isValid, if_pos (by simp; omega)]
    exact iff_of_false Bool.false_ne_true fun h => hmon h.1.1

theorem tryFromDate_eq_some_iff {year month day n : ℤ} : tryFromDate year month day = some n ↔
    (IsDate year month day ∧ InBounds year month day) ∧ n = dayCount year month day := by
  rw [tryFromDate, ← isValid_iff]
  cases hvld : isValid year month day with
  | false => simp
  | true =>
    obtain ⟨⟨hmon, -⟩, -⟩ := isValid_iff.1 hvld
    obtain ⟨k, hk, rfl⟩ := exists_month hmon
    have hbeg := (monthTable_eq (isLeapYear year) k hk).1
    have hidx : ((k : ℤ) + 1 - 1).toNat = k := by omega
    rw [if_neg (by decide), Option.some.injEq, hidx, yearBegin_eq]
    change monthBegin (isLeapYear year) k + _ + _ = n ↔ _
    change _ ↔ true = true ∧ n = newYear year + daysBeforeMonth (isLeapYear year) _ + _
    refine ⟨fun h => ⟨rfl, by omega⟩, fun h => ?_⟩
    omega

/-! ## The limits of 32 bits -/

section

variable {year month day : ℤ} (h : IsDate year month day) (hb : InBounds year month day)

include h hb

theorem inRange_dayCount :
    InRange (dayCount year month day) := by
  obtain ⟨hbeg, hend⟩ := h.dayOfYear
  obtain ⟨hmon, hday, hday'⟩ := h
  obtain ⟨k, hk, rfl⟩ := exists_month hmon
  rw [InBounds, Before, Before, minYear, maxYear, minMonth, maxMonth, minDay, maxDay] at hb
  rw [InRange, ninfinity, infinity]
  have hlow := @newYear_mono (-5877640) year
  have hhigh := @newYear_mono (year + 1) 5881580
  have hfst : newYear (-5877640) = -2147483456 := by decide
  have hlst : newYear 5881580 = 2147483455 := by decide
  have hmin : ∀ k < 12, 5 ≤ k → 151 + (if k = 5 then 0 else 30) ≤ daysBeforeMonth false ((k : ℕ) + 1) := by decide
  have hmax : ∀ k < 7, daysBeforeMonth true ((k : ℕ) + 1) + (if k = 6 then 0 else monthLength true (k + 1)) ≤ 182 := by
    decide
  have hmin' := hmin k hk
  have hmax' := hmax k
  by_cases hyear : year = -5877641
  · subst hyear
    have hleap : isLeap (-5877641) = false := by decide
    have hbeg' : newYear (-5877641) = -2147483821 := by decide
    have hnx : newYear (-5877641 + 1) = -2147483456 := by decide
    rw [dayCount, hleap, hbeg', hnx] at hend
    rw [dayCount, hleap, hbeg']
    split_ifs at hmin' <;> omega
  by_cases hyear' : year = 5881580
  · subst hyear'
    have hleap : isLeap 5881580 = true := by decide
    rw [hleap] at hday'
    rw [dayCount, hleap, hlst] at hbeg ⊢
    split_ifs at hmax' <;> omega
  omega

theorem inInt32_of_mem_fromDateSteps :
    ∀ n ∈ fromDateSteps year month day, -2147483648 ≤ n ∧ n ≤ 2147483647 := by
  have hrng := inRange_dayCount h hb
  have hyear : minYear ≤ year ∧ year ≤ maxYear := by
    rw [InBounds, Before, Before] at hb
    omega
  obtain ⟨hmon, hday, hday'⟩ := h
  obtain ⟨k, hk, rfl⟩ := exists_month hmon
  have hbd : ∀ leap, ∀ k < 12, (0 ≤ daysBeforeMonth leap ((k : ℕ) + 1) ∧ daysBeforeMonth leap ((k : ℕ) + 1) ≤ 335) ∧
      monthLength leap ((k : ℕ) + 1) ≤ 31 := by decide
  have hbef := hbd (isLeap year) k hk
  have htable : ((if isLeapYear year then cumulativeLeapDays else cumulativeDays).getD ((k : ℤ) + 1 - 1).toNat 0 : ℤ) =
      daysBeforeMonth (isLeap year) (k + 1) := by
    have hidx : ((k : ℤ) + 1 - 1).toNat = k := by omega
    rw [hidx]
    exact (monthTable_eq (isLeapYear year) k hk).1
  have hyears : ∀ i : ℤ, 0 ≤ i → i ≤ 400 →
      0 ≤ cumulativeYearDays.getD i.toNat 0 ∧ cumulativeYearDays.getD i.toNat 0 ≤ 146097 := by
    intro i hpos hle
    exact ⟨daysBefore_mono (Nat.zero_le _) (by omega), daysBefore_mono (j := 400) (by omega) le_rfl⟩
  rw [InRange, dayCount, ← yearBegin_eq, yearBegin, ninfinity, infinity, daysPerYearInterval] at hrng
  rw [fromDateSteps, htable]
  dsimp only at hrng ⊢
  simp only [daysPerYearInterval]
  split_ifs at hrng ⊢
  · have := hyears (400 - (1970 - year) % 400) (by omega) (by omega)
    simp only [forall_mem_cons]
    refine ⟨?_, ?_, ?_, ?_, ?_, ?_, ?_, forall_mem_nil _⟩ <;> omega
  · have := hyears ((year - 2370) % 400) (by omega) (by omega)
    simp only [forall_mem_cons]
    refine ⟨?_, ?_, ?_, ?_, ?_, ?_, ?_, forall_mem_nil _⟩ <;> omega
  · simp only [forall_mem_cons]
    refine ⟨?_, ?_, ?_, forall_mem_nil _⟩ <;> omega

end

/-! ## Reading a date -/

theorem extractYear_eq (d : ℤ) : extractYear d = (convert d).year := by
  rw [extractYear, convert]
  split_ifs <;> rfl

theorem extractDayOfTheYear_eq (d : ℤ) : extractDayOfTheYear d = d - newYear (convert d).year + 1 := by
  obtain ⟨hoff, hbeg, hend, q, hd, hyear⟩ := extractYearOffset_spec d
  have hbeg' := yearBegin_interval q hoff
  rw [← extractYear_eq, extractYear, hyear, ← yearBegin_eq, hbeg', extractDayOfTheYear]
  change _ - daysBefore _ + 1 = _
  omega

theorem index_lt_of_mem_convertIndices (d : ℤ) : ∀ e ∈ convertIndices d, 0 ≤ e.1 ∧ e.1 < e.2 := by
  obtain ⟨hoff, hbeg, hend, q, hd, hyear⟩ := extractYearOffset_spec d
  obtain ⟨q', i, k, hi, hd', hk, hconv⟩ := convert_eq d
  have hyear' : (extractYearOffset d).year = epochYear + yearInterval * q' + i := by
    rw [← extractYear, extractYear_eq, hconv]
  have hsucc := daysBefore_succ _ hoff
  have hmono := daysBefore_mono (j := 400) hoff le_rfl
  have hpos := daysBefore_mono (Nat.zero_le (extractYearOffset d).yearOffset) hoff.le
  have hlst : daysBefore 400 = 146097 := rfl
  have hz : daysBefore 0 = 0 := rfl
  have hlen : cumulativeYearDays.length = 401 := by decide
  obtain ⟨⟨hmon, hmon'⟩, -⟩ := monthOfDay_spec _ hk
  rw [← isLeapYear_interval q, ← hyear] at hsucc
  rw [convertIndices, hconv, hlen, hyear']
  rw [← hyear'] at *
  simp only [forall_mem_cons]
  have hmonths : ∀ leap : Bool, (if leap then cumulativeLeapDays else cumulativeDays).length = 13 := by decide
  have hdays : ∀ leap : Bool, (if leap then leapMonthPerDayOfYear else monthPerDayOfYear).length =
      if leap then 366 else 365 := by decide
  rw [hmonths, hdays]
  change _ ∧ _ ∧ _ ∧ (0 ≤ _ - daysBefore _ ∧ _ - daysBefore _ < _) ∧ _
  generalize daysBefore ((extractYearOffset d).yearOffset + 1) = next at *
  generalize daysBefore (extractYearOffset d).yearOffset = first at *
  refine ⟨by omega, by omega, by omega, ⟨by omega, ?_⟩, by omega, forall_mem_nil _⟩
  split_ifs at hsucc ⊢ <;> omega

/-- Dates that can be held are counted without overflow, others are refused, and `Date::Convert` returns the date of a
    count. -/
theorem follows_calendar :
    (∀ year month day, ((tryFromDate year month day).isSome ↔ IsDate year month day ∧ InBounds year month day) ∧
      ∀ n, tryFromDate year month day = some n → n = dayCount year month day ∧
        ∀ step ∈ fromDateSteps year month day, -2147483648 ≤ step ∧ step ≤ 2147483647) ∧
    ∀ d, InRange d → (∀ e ∈ convertIndices d, 0 ≤ e.1 ∧ e.1 < e.2) ∧
      (∀ year month day, tryFromDate year month day = some d ↔ convert d = ⟨year, month, day⟩) ∧
        extractYear d = (convert d).year ∧ extractDayOfTheYear d = d - dayCount (convert d).year 1 1 + 1 := by
  refine ⟨fun year month day => ⟨?_, fun n hn => ?_⟩, fun d hd => ⟨index_lt_of_mem_convertIndices d, ?_, ?_, ?_⟩⟩
  · rw [Option.isSome_iff_exists]
    simp only [tryFromDate_eq_some_iff]
    exact ⟨fun h => h.choose_spec.1, fun h => ⟨_, h, rfl⟩⟩
  · obtain ⟨h, hn⟩ := tryFromDate_eq_some_iff.1 hn
    exact ⟨hn, inInt32_of_mem_fromDateSteps h.1 h.2⟩
  · intro year month day
    have hconv := tryFromDate_convert hd
    refine ⟨fun h => ?_, fun h => by rwa [h] at hconv⟩
    obtain ⟨⟨hdate, -⟩, hcnt⟩ := tryFromDate_eq_some_iff.1 hconv
    obtain ⟨⟨hdate', -⟩, hcnt'⟩ := tryFromDate_eq_some_iff.1 h
    obtain ⟨rfl, rfl, rfl⟩ := dayCount_inj hdate hdate' (hcnt.symm.trans hcnt')
    rfl
  · exact extractYear_eq d
  · have hfst : ∀ leap, daysBeforeMonth leap 1 = 0 := by decide
    rw [extractDayOfTheYear_eq, dayCount, hfst]
    omega

end WfOpt.Date

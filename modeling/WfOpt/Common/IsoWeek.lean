import WfOpt.Common.DateCalendar

/-!
# ISO weeks

A week goes from Monday to Sunday and belongs to the year of its Thursday. `GetISOYearWeek` asks `Date::FromDate` for
the first days of the years around the date. As the first year of all begins before the first date, it fails for the
193 dates before the first week of the second year, and only for them (`isoYearWeek_iff`).
-/

namespace WfOpt.Date

open Option Calendar

/-- `ExtractISODayOfTheWeek` -/
def extractISODayOfTheWeek (d : ℤ) : ℤ := if d < 0 then 7 - (-d + 3) % 7 else (d + 3) % 7 + 1

/-- `PythonDivMod` -/
def pythonDivMod (x y : ℤ) : ℤ × ℤ := let quo := x.tdiv y
  let r := x - quo * y
  if r < 0 then (quo - 1, r + y) else (quo, r)

/-- `GetISOWeekOne`, where `Date::FromDate` may throw. -/
def getISOWeekOne (year : ℤ) : Option ℤ := do
  let firstDay ← tryFromDate year 1 1
  let firstWeekday := extractISODayOfTheWeek firstDay - 1
  let week1Monday := firstDay - firstWeekday
  return if firstWeekday > 3 then week1Monday + 7 else week1Monday

/-- `GetISOYearWeek` -/
def getISOYearWeek (date : ℤ) : Option (ℤ × ℤ) := do
  let year := (convert date).year
  let week1Monday ← getISOWeekOne year
  let week := (pythonDivMod (date - week1Monday) 7).1
  if week < 0 then
    let week1Monday ← getISOWeekOne (year - 1)
    return (year - 1, (pythonDivMod (date - week1Monday) 7).1 + 1)
  else if week ≥ 52 then
    let nextMonday ← getISOWeekOne (year + 1)
    return if date ≥ nextMonday then (year + 1, 1) else (year, week + 1)
  else return (year, week + 1)

/-- The Thursday of the week of a date -/
def thursday (d : ℤ) : ℤ := d - extractISODayOfTheWeek d + 4

/-- The year has the Thursday of the week, which is as many weeks after its first Thursday. -/
def IsISOWeek (d year week : ℤ) : Prop := (newYear year ≤ thursday d ∧ thursday d < newYear (year + 1)) ∧
    ∃ first, (newYear year ≤ first ∧ first < newYear year + 7) ∧ extractISODayOfTheWeek first = 4 ∧
      thursday d = first + 7 * (week - 1)

/-- `ExtractISOYearWeek` returns the year and the week of the date. -/
def ReturnsISOWeek (d : ℤ) : Prop := ∃ year week, getISOYearWeek d = some (year, week) ∧ IsISOWeek d year week

theorem extractISODayOfTheWeek_eq (d : ℤ) : extractISODayOfTheWeek d = (d + 3) % 7 + 1 := by
  rw [extractISODayOfTheWeek]
  split_ifs <;> omega

theorem pythonDivMod_seven (x : ℤ) : (pythonDivMod x 7).1 = x / 7 := by
  have hsign : Int.sign 7 = 1 := rfl
  rw [pythonDivMod, Int.tdiv_eq_ediv, hsign]
  split_ifs <;> dsimp only at * <;> omega

/-- The Monday of the first week is at most three days away from the first day, in all years but the first one. -/
theorem getISOWeekOne_eq {year : ℤ} (h : minYear < year) (h' : year ≤ maxYear) : ∃ monday,
    getISOWeekOne year = some monday ∧ monday % 7 = 4 ∧ newYear year - 3 ≤ monday ∧ monday ≤ newYear year + 3 := by
  have hfst : ∀ leap, daysBeforeMonth leap 1 = 0 ∧ 1 ≤ monthLength leap 1 := by decide
  have hdate : tryFromDate year 1 1 = some (newYear year) := by
    refine tryFromDate_eq_some_iff.2 ⟨⟨⟨by decide, by decide, (hfst _).2⟩, ?_⟩, ?_⟩
    · rw [InBounds, Before, Before, maxMonth]
      omega
    · rw [dayCount, (hfst _).1]
      omega
  rw [getISOWeekOne, hdate, bind_eq_bind, bind_some, extractISODayOfTheWeek_eq]
  refine ⟨_, rfl, ?_⟩
  split_ifs <;> omega

theorem getISOWeekOne_minYear : getISOWeekOne minYear = none := by
  have hdate : tryFromDate minYear 1 1 = none := by
    rw [eq_none_iff_forall_ne_some]
    intro n hn
    exact (tryFromDate_eq_some_iff.1 hn).1.2.1 (Or.inr ⟨rfl, Or.inl (by decide)⟩)
  rfl

theorem year_convert {d : ℤ} (h : InRange d) :
    newYear (convert d).year ≤ d ∧ d < newYear ((convert d).year + 1) ∧ minYear ≤ (convert d).year ∧
      (convert d).year ≤ maxYear := by
  obtain ⟨⟨hdate, -⟩, hcnt⟩ := tryFromDate_eq_some_iff.1 (tryFromDate_convert h)
  obtain ⟨hbeg, hend⟩ := hdate.dayOfYear
  rw [← hcnt] at hbeg hend
  exact ⟨hbeg, hend, (parts_convert h).1⟩

theorem isISOWeek_of_monday {d year monday : ℤ} (hmonday : monday % 7 = 4) (hfrom : newYear year - 3 ≤ monday)
    (hto : monday ≤ newYear year + 3) (hle : monday ≤ d) (hlt : thursday d < newYear (year + 1)) :
    IsISOWeek d year ((d - monday) / 7 + 1) := by
  rw [IsISOWeek]
  rw [thursday, extractISODayOfTheWeek_eq] at *
  refine ⟨by omega, monday + 3, by omega, ?_, by omega⟩
  rw [extractISODayOfTheWeek_eq]
  omega

theorem newYear_succ_bounds (year : ℤ) : newYear year + 365 ≤ newYear (year + 1) ∧
    newYear (year + 1) ≤ newYear year + 366 := by
  rw [newYear_succ, yearLength]
  split_ifs <;> omega

/-- The second year begins on a Friday, so its first week begins three days later. -/
theorem newYear_secondYear : newYear (minYear + 1) = -2147483456 := by
  decide

theorem returnsISOWeek_of_le {d : ℤ} (h : InRange d) (hle : -2147483453 ≤ d) : ReturnsISOWeek d := by
  obtain ⟨hbeg, hend, hmin, hmax⟩ := year_convert h
  rw [ReturnsISOWeek, getISOYearWeek]
  generalize (convert d).year = year at *
  have hsnd := newYear_secondYear
  have hlst : newYear maxYear = 2147483455 := by decide
  have hyear := newYear_succ_bounds year
  have hmin' : minYear < year := by
    refine lt_of_le_of_ne hmin ?_
    rintro rfl
    omega
  obtain ⟨monday, hmonday, hmod, hfrom, hto⟩ := getISOWeekOne_eq hmin' hmax
  rw [hmonday, bind_eq_bind, bind_some, pythonDivMod_seven]
  have hthursday : thursday d = d - (d + 3) % 7 + 3 := by
    rw [thursday, extractISODayOfTheWeek_eq]
    omega
  dsimp only
  split_ifs with hneg h52
  · -- The week belongs to the year before, which is not the first one.
    have hmin'' : minYear < year - 1 := by
      refine lt_of_le_of_ne (by omega) fun h => ?_
      rw [h, sub_add_cancel] at hsnd
      omega
    have hyear' := newYear_succ_bounds (year - 1)
    rw [sub_add_cancel] at hyear'
    obtain ⟨monday', hmonday', hmod', hfrom', hto'⟩ := getISOWeekOne_eq hmin'' (by omega)
    rw [hmonday', bind_some, pythonDivMod_seven]
    refine ⟨_, _, rfl, isISOWeek_of_monday hmod' hfrom' hto' (by omega) ?_⟩
    rw [sub_add_cancel]
    omega
  · -- The last date is in July.
    have hmax' : year + 1 ≤ maxYear := by
      refine lt_of_le_of_ne hmax fun h' => ?_
      rw [h'] at hfrom
      have := h.2
      rw [infinity] at this
      omega
    obtain ⟨monday', hmonday', hmod', hfrom', hto'⟩ := getISOWeekOne_eq (by omega : minYear < year + 1) hmax'
    have hyear' := newYear_succ_bounds (year + 1)
    rw [hmonday', bind_some]
    by_cases hnx : d ≥ monday'
    · have hweek := isISOWeek_of_monday (d := d) hmod' hfrom' hto' hnx (by omega)
      have hz : (d - monday') / 7 + 1 = 1 := by omega
      rw [hz] at hweek
      rw [if_pos hnx]
      exact ⟨_, _, rfl, hweek⟩
    · rw [if_neg hnx]
      exact ⟨_, _, rfl, isISOWeek_of_monday hmod hfrom hto (by omega) (by omega)⟩
  · exact ⟨_, _, rfl, isISOWeek_of_monday hmod hfrom hto (by omega) (by omega)⟩

/-- Before its first week, the second year asks for the first day of the first one, as that year does itself. -/
theorem getISOYearWeek_of_lt {d : ℤ} (h : InRange d) (hlt : d < -2147483453) : getISOYearWeek d = none := by
  obtain ⟨hbeg, hend, hmin, hmax⟩ := year_convert h
  rw [getISOYearWeek]
  generalize (convert d).year = year at *
  have hsnd := newYear_secondYear
  rcases hmin.eq_or_lt with rfl | hmin'
  · rfl
  · obtain rfl : year = minYear + 1 := by
      by_contra hne
      have := newYear_mono (show minYear + 1 + 1 ≤ year by omega)
      have := newYear_succ_bounds (minYear + 1)
      omega
    obtain ⟨monday, hmonday, hmod, hfrom, hto⟩ := getISOWeekOne_eq hmin' hmax
    rw [hmonday, bind_eq_bind, bind_some, pythonDivMod_seven, if_pos (by omega), add_sub_cancel_right,
      getISOWeekOne_minYear]
    rfl

/-- Year and week are those of the Thursday, for all dates not before the first week of the second year. The weekdays
    always go from one to seven. -/
theorem isoYearWeek_iff (d : ℤ) : (InRange d → (ReturnsISOWeek d ↔ -2147483453 ≤ d)) ∧
      extractISODayOfTheWeek (d + 1) =
        (if extractISODayOfTheWeek d = 7 then 1 else extractISODayOfTheWeek d + 1) ∧
      (1 ≤ extractISODayOfTheWeek d ∧ extractISODayOfTheWeek d ≤ 7) ∧
      ∀ d', InRange d → InRange d' → -2147483453 ≤ d → -2147483453 ≤ d' → getISOYearWeek d = getISOYearWeek d' →
        extractISODayOfTheWeek d = extractISODayOfTheWeek d' → d = d' := by
  refine ⟨fun hd => ⟨fun h => ?_, returnsISOWeek_of_le hd⟩, ?_, ?_, ?_⟩
  · by_contra hlt
    obtain ⟨year, week, hsome, -⟩ := h
    rw [getISOYearWeek_of_lt hd (not_le.1 hlt)] at hsome
    exact absurd hsome (some_ne_none _).symm
  · rw [extractISODayOfTheWeek_eq, extractISODayOfTheWeek_eq]
    split_ifs <;> omega
  · rw [extractISODayOfTheWeek_eq]
    omega
  · intro d' hd hd' hle hle' heq hday
    obtain ⟨year, week, hsome, -, first, hfst, hfour, hweeks⟩ := returnsISOWeek_of_le hd hle
    obtain ⟨year', week', hsome', -, first', hfst', hfour', hweeks'⟩ := returnsISOWeek_of_le hd' hle'
    rw [heq, hsome', some.injEq, Prod.mk.injEq] at hsome
    obtain ⟨rfl, rfl⟩ := hsome
    rw [thursday] at hweeks hweeks'
    rw [extractISODayOfTheWeek_eq] at hfour hfour'
    omega

/-- The first date of all, 5877642-06-25 BC -/
theorem not_returnsISOWeek : InRange (-2147483646) ∧ ¬ReturnsISOWeek (-2147483646) := by
  have hrng : InRange (-2147483646) := ⟨by decide, by decide⟩
  refine ⟨hrng, fun h => ?_⟩
  obtain ⟨year, week, hsome, -⟩ := h
  rw [getISOYearWeek_of_lt hrng (by decide)] at hsome
  exact absurd hsome (some_ne_none _).symm

end WfOpt.Date

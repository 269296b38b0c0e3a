import Mathlib

/-!
# The proleptic Gregorian calendar

The days are counted from 1970-01-01 (`dayCount_epoch`), and a date has one more than the date before
(`dayCount_next`), so the closed form of `dayCount` is the count of the calendar. No two dates have the same count
(`dayCount_inj`).
-/

namespace WfOpt.Calendar

def isLeap (year : ℤ) : Bool := year % 4 = 0 && (year % 100 ≠ 0 || year % 400 = 0)

def yearLength (leap : Bool) : ℤ := if leap then 366 else 365

def monthLength (leap : Bool) (month : ℤ) : ℤ := if month = 2 then if leap then 29 else 28
  else if month = 4 ∨ month = 6 ∨ month = 9 ∨ month = 11 then 30
  else 31

def daysBeforeMonth (leap : Bool) (month : ℤ) : ℤ :=
  ((List.range (month - 1).toNat).map fun k => monthLength leap (k + 1)).sum

/-- The count of the first day of a year. -/
def newYear (year : ℤ) : ℤ := 365 * (year - 1970) + (year - 1) / 4 - (year - 1) / 100 + (year - 1) / 400 - 477

/-- The numbers are those of a date. -/
def IsDate (year month day : ℤ) : Prop := (1 ≤ month ∧ month ≤ 12) ∧ 1 ≤ day ∧ day ≤ monthLength (isLeap year) month

def dayCount (year month day : ℤ) : ℤ := newYear year + daysBeforeMonth (isLeap year) month + (day - 1)

/-- The first date is before the second one. -/
def Before (year month day year' month' day' : ℤ) : Prop :=
  year < year' ∨ year = year' ∧ (month < month' ∨ month = month' ∧ day < day')

/-- The date after a date -/
def next (year month day : ℤ) : ℤ × ℤ × ℤ := if day < monthLength (isLeap year) month then (year, month, day + 1)
  else if month < 12 then (year, month + 1, 1)
  else (year + 1, 1, 1)

theorem newYear_succ (year : ℤ) : newYear (year + 1) = newYear year + yearLength (isLeap year) := by
  rw [newYear, newYear, yearLength, isLeap]
  simp only [Bool.and_eq_true, Bool.or_eq_true, decide_eq_true_eq]
  split_ifs <;> omega

theorem newYear_mono {year year' : ℤ} (h : year ≤ year') : newYear year ≤ newYear year' := by
  rw [newYear, newYear]
  omega

theorem exists_month {month : ℤ} (h : 1 ≤ month ∧ month ≤ 12) : ∃ k < 12, month = ((k : ℕ) : ℤ) + 1 :=
  ⟨(month - 1).toNat, by omega, by omega⟩

theorem daysBeforeMonth_succ : ∀ leap, ∀ k < 12, daysBeforeMonth leap ((k : ℕ) + 1 + 1) =
    daysBeforeMonth leap (k + 1) + monthLength leap (k + 1) := by
  decide

theorem daysBeforeMonth_le : ∀ leap, ∀ k < 12, ∀ k' < k, daysBeforeMonth leap ((k' : ℕ) + 1) +
    monthLength leap (k' + 1) ≤ daysBeforeMonth leap ((k : ℕ) + 1) := by
  decide

theorem daysBeforeMonth_year : ∀ leap, daysBeforeMonth leap 13 = yearLength leap := by
  decide

theorem IsDate.dayOfYear {year month day : ℤ} (h : IsDate year month day) :
    newYear year ≤ dayCount year month day ∧ dayCount year month day < newYear (year + 1) := by
  obtain ⟨hmon, hday, hday'⟩ := h
  obtain ⟨k, hk, rfl⟩ := exists_month hmon
  have hsucc := daysBeforeMonth_succ (isLeap year) k hk
  have hz : ∀ leap, ∀ k < 12, 0 ≤ daysBeforeMonth leap ((k : ℕ) + 1) := by decide
  have hpos := hz (isLeap year) k hk
  have hend : ∀ leap, ∀ k < 12, daysBeforeMonth leap ((k : ℕ) + 1 + 1) ≤ yearLength leap := by decide
  have hle := hend (isLeap year) k hk
  rw [dayCount, newYear_succ]
  omega

theorem dayCount_epoch : IsDate 1970 1 1 ∧ dayCount 1970 1 1 = 0 := ⟨⟨by decide, by decide⟩, by decide⟩

theorem dayCount_next {year month day : ℤ} (h : IsDate year month day) :
    dayCount (next year month day).1 (next year month day).2.1 (next year month day).2.2 =
      dayCount year month day + 1 := by
  obtain ⟨hmon, hday, hday'⟩ := h
  obtain ⟨k, hk, rfl⟩ := exists_month hmon
  have hsucc := daysBeforeMonth_succ (isLeap year) k hk
  rw [next]
  split_ifs with hlst hdecember
  · rw [dayCount, dayCount]
    dsimp only
    omega
  · rw [dayCount, dayCount, hsucc]
    dsimp only
    omega
  · -- After the last day of December
    obtain rfl : k = 11 := by omega
    have hfst : ∀ leap, daysBeforeMonth leap 1 = 0 := by decide
    have hyear : daysBeforeMonth (isLeap year) (((11 : ℕ) : ℤ) + 1 + 1) = yearLength (isLeap year) :=
      daysBeforeMonth_year (isLeap year)
    rw [dayCount, dayCount, newYear_succ, hfst]
    dsimp only
    omega

theorem dayCount_inj {year month day year' month' day' : ℤ} (h : IsDate year month day)
    (h' : IsDate year' month' day') (heq : dayCount year month day = dayCount year' month' day') :
    year = year' ∧ month = month' ∧ day = day' := by
  obtain ⟨hbeg, hend⟩ := h.dayOfYear
  obtain ⟨hbeg', hend'⟩ := h'.dayOfYear
  obtain rfl : year = year' := by
    by_contra hne
    rcases lt_or_gt_of_ne hne with hlt | hlt
    iterate 2
      · have := newYear_mono (Int.add_one_le_iff.2 hlt)
        omega
  obtain ⟨hmon, hday, hday'⟩ := h
  obtain ⟨hmon', hdate, hdate'⟩ := h'
  obtain ⟨k, hk, rfl⟩ := exists_month hmon
  obtain ⟨k', hk', rfl⟩ := exists_month hmon'
  rw [dayCount, dayCount] at heq
  obtain hlt | rfl | hlt := lt_trichotomy k k'
  · have := daysBeforeMonth_le (isLeap year) k' hk' k hlt
    omega
  · exact ⟨rfl, rfl, by omega⟩
  · have := daysBeforeMonth_le (isLeap year) k hk k' hlt
    omega

end WfOpt.Calendar

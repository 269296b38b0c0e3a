import WfOpt.Lib.Calendar

/-!
# Dates

A date is the number of days since 1970-01-01. `Date::Convert` gives its year, month and day from a table of the days
before each of 400 years, and `Date::TryFromDate` gives the date back (`Date.tryFromDate_convert`) if it is between the
two infinite dates, which is exactly what the limits in years, months and days say.
-/

namespace WfOpt.Date

set_option maxRecDepth 10000

/-! ## Tables -/

def epochYear : ℤ := 1970

/-- `YEAR_INTERVAL` -/
def yearInterval : ℤ := 400

/-- `DAYS_PER_YEAR_INTERVAL` -/
def daysPerYearInterval : ℤ := 146097

def infinity : ℤ := 2147483647

def ninfinity : ℤ := -2147483647

def normalDays : List ℤ := [0, 31, 28, 31, 30, 31, 30, 31, 31, 30, 31, 30, 31]

def cumulativeDays : List ℤ := [0, 31, 59, 90, 120, 151, 181, 212, 243, 273, 304, 334, 365]

def leapDays : List ℤ := [0, 31, 29, 31, 30, 31, 30, 31, 31, 30, 31, 30, 31]

def cumulativeLeapDays : List ℤ := [0, 31, 60, 91, 121, 152, 182, 213, 244, 274, 305, 335, 366]

/-- The months of the days of a year, where each month has the given number of days -/
def monthTable (days : List ℕ) : List ℕ := (days.zipIdx 1).flatMap fun (n, month) => List.replicate n month

def monthPerDayOfYear : List ℕ := monthTable [31, 28, 31, 30, 31, 30, 31, 31, 30, 31, 30, 31]

def leapMonthPerDayOfYear : List ℕ := monthTable [31, 29, 31, 30, 31, 30, 31, 31, 30, 31, 30, 31]

def cumulativeYearDays : List ℤ :=
  [0, 365, 730, 1096, 1461, 1826, 2191, 2557, 2922, 3287, 3652, 4018, 4383, 4748, 5113, 5479, 5844, 6209, 6574,
   6940, 7305, 7670, 8035, 8401, 8766, 9131, 9496, 9862, 10227, 10592, 10957, 11323, 11688, 12053, 12418,
   12784, 13149, 13514, 13879, 14245, 14610, 14975, 15340, 15706, 16071, 16436, 16801, 17167, 17532, 17897,
   18262, 18628, 18993, 19358, 19723, 20089, 20454, 20819, 21184, 21550, 21915, 22280, 22645, 23011, 23376,
   23741, 24106, 24472, 24837, 25202, 25567, 25933, 26298, 26663, 27028, 27394, 27759, 28124, 28489, 28855,
   29220, 29585, 29950, 30316, 30681, 31046, 31411, 31777, 32142, 32507, 32872, 33238, 33603, 33968, 34333,
   34699, 35064, 35429, 35794, 36160, 36525, 36890, 37255, 37621, 37986, 38351, 38716, 39082, 39447, 39812,
   40177, 40543, 40908, 41273, 41638, 42004, 42369, 42734, 43099, 43465, 43830, 44195, 44560, 44926, 45291,
   45656, 46021, 46387, 46752, 47117, 47482, 47847, 48212, 48577, 48942, 49308, 49673, 50038, 50403, 50769,
   51134, 51499, 51864, 52230, 52595, 52960, 53325, 53691, 54056, 54421, 54786, 55152, 55517, 55882, 56247,
   56613, 56978, 57343, 57708, 58074, 58439, 58804, 59169, 59535, 59900, 60265, 60630, 60996, 61361, 61726,
   62091, 62457, 62822, 63187, 63552, 63918, 64283, 64648, 65013, 65379, 65744, 66109, 66474, 66840, 67205,
   67570, 67935, 68301, 68666, 69031, 69396, 69762, 70127, 70492, 70857, 71223, 71588, 71953, 72318, 72684,
   73049, 73414, 73779, 74145, 74510, 74875, 75240, 75606, 75971, 76336, 76701, 77067, 77432, 77797, 78162,
   78528, 78893, 79258, 79623, 79989, 80354, 80719, 81084, 81450, 81815, 82180, 82545, 82911, 83276, 83641,
   84006, 84371, 84736, 85101, 85466, 85832, 86197, 86562, 86927, 87293, 87658, 88023, 88388, 88754, 89119,
   89484, 89849, 90215, 90580, 90945, 91310, 91676, 92041, 92406, 92771, 93137, 93502, 93867, 94232, 94598,
   94963, 95328, 95693, 96059, 96424, 96789, 97154, 97520, 97885, 98250, 98615, 98981, 99346, 99711, 100076,
   100442, 100807, 101172, 101537, 101903, 102268, 102633, 102998, 103364, 103729, 104094, 104459, 104825,
   105190, 105555, 105920, 106286, 106651, 107016, 107381, 107747, 108112, 108477, 108842, 109208, 109573,
   109938, 110303, 110669, 111034, 111399, 111764, 112130, 112495, 112860, 113225, 113591, 113956, 114321,
   114686, 115052, 115417, 115782, 116147, 116513, 116878, 117243, 117608, 117974, 118339, 118704, 119069,
   119435, 119800, 120165, 120530, 120895, 121260, 121625, 121990, 122356, 122721, 123086, 123451, 123817,
   124182, 124547, 124912, 125278, 125643, 126008, 126373, 126739, 127104, 127469, 127834, 128200, 128565,
   128930, 129295, 129661, 130026, 130391, 130756, 131122, 131487, 131852, 132217, 132583, 132948, 133313,
   133678, 134044, 134409, 134774, 135139, 135505, 135870, 136235, 136600, 136966, 137331, 137696, 138061,
   138427, 138792, 139157, 139522, 139888, 140253, 140618, 140983, 141349, 141714, 142079, 142444, 142810,
   143175, 143540, 143905, 144271, 144636, 145001, 145366, 145732, 146097]

/-! ## Dates and their parts -/

/-- `ExtractYearOffset`: intervals are added until the number is not negative. -/
def raiseDays (n year : ℤ) : ℤ × ℤ :=
  if n < 0 then raiseDays (n + daysPerYearInterval) (year - yearInterval) else (n, year)
termination_by (-n).toNat
decreasing_by
  rw [daysPerYearInterval]
  omega

/-- `ExtractYearOffset`: intervals are taken away until the number is within one. -/
def lowerDays (n year : ℤ) : ℤ × ℤ :=
  if daysPerYearInterval ≤ n then lowerDays (n - daysPerYearInterval) (year + yearInterval) else (n, year)
termination_by n.toNat
decreasing_by
  rw [daysPerYearInterval] at *
  omega

/-- `ExtractYearOffset`: the offset is decremented until the year begins before the day. -/
def yearOffsetLoop (n : ℤ) : ℕ → ℕ
  | 0 => 0
  | yearOffset + 1 =>
    if n < cumulativeYearDays.getD (yearOffset + 1) 0 then yearOffsetLoop n yearOffset else yearOffset + 1

/-- The results of `ExtractYearOffset` -/
structure YearOffset where
  n : ℤ
  year : ℤ
  yearOffset : ℕ

/-- `Date::ExtractYearOffset` -/
def extractYearOffset (n : ℤ) : YearOffset := let raised := raiseDays n epochYear
  let lowered := lowerDays raised.1 raised.2
  let yearOffset := yearOffsetLoop lowered.1 (lowered.1 / 365).toNat
  ⟨lowered.1, lowered.2 + yearOffset, yearOffset⟩

/-- The year, month and day of a date. -/
structure Parts where
  year : ℤ
  month : ℤ
  day : ℤ

/-- `Date::Convert` -/
def convert (d : ℤ) : Parts := let offset := extractYearOffset d
  let day := offset.n - cumulativeYearDays.getD offset.yearOffset 0
  if cumulativeYearDays.getD (offset.yearOffset + 1) 0 - cumulativeYearDays.getD offset.yearOffset 0 = 366 then
    let month := leapMonthPerDayOfYear.getD day.toNat 0
    ⟨offset.year, month, day - cumulativeLeapDays.getD (month - 1) 0 + 1⟩
  else
    let month := monthPerDayOfYear.getD day.toNat 0
    ⟨offset.year, month, day - cumulativeDays.getD (month - 1) 0 + 1⟩

def isLeapYear (year : ℤ) : Bool := year % 4 = 0 && (year % 100 ≠ 0 || year % 400 = 0)

def minYear : ℤ := -5877641
def minMonth : ℤ := 6
def minDay : ℤ := 25
def maxYear : ℤ := 5881580
def maxMonth : ℤ := 7
def maxDay : ℤ := 10

/-- `Date::IsValid` -/
def isValid (year month day : ℤ) : Bool := if month < 1 || month > 12 then false
  else if day < 1 then false
  else if year < minYear then false
  else if year = minYear && (month < minMonth || (month = minMonth && day < minDay)) then false
  else if year > maxYear then false
  else if year = maxYear && (month > maxMonth || (month = maxMonth && day > maxDay)) then false
  else if isLeapYear year then day ≤ leapDays.getD month.toNat 0
  else day ≤ normalDays.getD month.toNat 0

/-- The day on which a year begins, in `Date::TryFromDate` -/
def yearBegin (year : ℤ) : ℤ := if year < 1970 then
    let diffFromBase := 1970 - year
    let yearIndex := 400 - diffFromBase % 400
    let fractions := diffFromBase / 400
    cumulativeYearDays.getD yearIndex.toNat 0 - daysPerYearInterval - fractions * daysPerYearInterval
  else if year ≥ 2370 then
    let diffFromBase := year - 2370
    let yearIndex := diffFromBase % 400
    let fractions := diffFromBase / 400
    cumulativeYearDays.getD yearIndex.toNat 0 + daysPerYearInterval + fractions * daysPerYearInterval
  else cumulativeYearDays.getD (year - 1970).toNat 0

/-- `Date::TryFromDate` -/
def tryFromDate (year month day : ℤ) : Option ℤ := if !isValid year month day then none
  else
    let days := if isLeapYear year then cumulativeLeapDays else cumulativeDays
    some (days.getD (month - 1).toNat 0 + (day - 1) + yearBegin year)

/-! ## The tables are those of the calendar -/

/-- The days before a year of the interval -/
def daysBefore (i : ℕ) : ℤ := cumulativeYearDays.getD i 0

/-- What holds of the entries of a table with their places holds at each place. -/
theorem mk_getD_mem_zipIdx {α : Type*} {l : List α} {i : ℕ} (fallback : α) (h : i < l.length) :
    (l.getD i fallback, i) ∈ l.zipIdx := by
  simp [List.mk_mem_zipIdx_iff_getElem?, h]

theorem daysBefore_eq {i : ℕ} (h : i ≤ 400) : daysBefore i = Calendar.newYear (1970 + i) := by
  have hall : ∀ p ∈ cumulativeYearDays.zipIdx, p.1 = Calendar.newYear (1970 + p.2) := by decide
  exact hall _ (mk_getD_mem_zipIdx 0 (h.trans_lt (by decide)))

theorem daysBefore_succ (i : ℕ) (h : i < 400) :
    daysBefore (i + 1) = daysBefore i + if isLeapYear (1970 + i) then 366 else 365 := by
  rw [daysBefore_eq h, daysBefore_eq h.le]
  push_cast
  rw [← add_assoc, Calendar.newYear_succ]
  rfl

theorem le_daysBefore {i : ℕ} (h : i ≤ 400) : (365 * i : ℤ) ≤ daysBefore i := by
  rw [daysBefore_eq h, Calendar.newYear]
  omega

theorem daysBefore_mono {i j : ℕ} (hij : i ≤ j) (hj : j ≤ 400) : daysBefore i ≤ daysBefore j := by
  rw [daysBefore_eq (hij.trans hj), daysBefore_eq hj]
  exact Calendar.newYear_mono (by omega)

/-- The days of a month, and those before it -/
def monthDays (leap : Bool) (month : ℕ) : ℤ := (if leap then leapDays else normalDays).getD month 0

def monthBegin (leap : Bool) (month : ℕ) : ℤ := (if leap then cumulativeLeapDays else cumulativeDays).getD month 0

def monthOfDay (leap : Bool) (day : ℕ) : ℕ := (if leap then leapMonthPerDayOfYear else monthPerDayOfYear).getD day 0

/-- The table has each day with its month. -/
theorem mk_monthOfDay_mem (leap : Bool) {day : ℕ} (h : day < if leap then 366 else 365) :
    (monthOfDay leap day, day) ∈ (if leap then leapMonthPerDayOfYear else monthPerDayOfYear).zipIdx :=
  mk_getD_mem_zipIdx 0 (by cases leap <;> exact h.trans_le (by decide))

theorem monthOfDay_spec (leap : Bool) {day : ℕ} (h : day < if leap then 366 else 365) :
    (1 ≤ monthOfDay leap day ∧ monthOfDay leap day ≤ 12) ∧ monthBegin leap (monthOfDay leap day - 1) ≤ day ∧
      day < monthBegin leap (monthOfDay leap day - 1) + monthDays leap (monthOfDay leap day) := by
  have hday : ∀ leap, ∀ p ∈ (if leap then leapMonthPerDayOfYear else monthPerDayOfYear).zipIdx,
      (1 ≤ p.1 ∧ p.1 ≤ 12) ∧ monthBegin leap (p.1 - 1) ≤ p.2 ∧ p.2 < monthBegin leap (p.1 - 1) + monthDays leap p.1 := by decide
  exact hday leap _ (mk_monthOfDay_mem leap h)

/-! ## Years -/

theorem raiseDays_spec (n year : ℤ) :
    0 ≤ (raiseDays n year).1 ∧ ∃ q, n = (raiseDays n year).1 + daysPerYearInterval * q ∧
      year = (raiseDays n year).2 - yearInterval * q := by
  induction n, year using raiseDays.induct with
  | case1 n year h ih =>
    obtain ⟨hpos, q, hn, hyear⟩ := ih
    rw [raiseDays, if_pos h]
    exact ⟨hpos, q - 1, by linarith, by linarith⟩
  | case2 n year h =>
    rw [raiseDays, if_neg h]
    exact ⟨not_lt.1 h, 0, by simp, by simp⟩

theorem lowerDays_spec (n year : ℤ) (hn : 0 ≤ n) :
    (0 ≤ (lowerDays n year).1 ∧ (lowerDays n year).1 < daysPerYearInterval) ∧
      ∃ q, n = (lowerDays n year).1 + daysPerYearInterval * q ∧ year = (lowerDays n year).2 - yearInterval * q := by
  induction n, year using lowerDays.induct with
  | case1 n year h ih =>
    obtain ⟨hrng, q, hn', hyear⟩ := ih (sub_nonneg.2 h)
    rw [lowerDays, if_pos h]
    exact ⟨hrng, q + 1, by linarith, by linarith⟩
  | case2 n year h =>
    rw [lowerDays, if_neg h]
    exact ⟨⟨hn, not_le.1 h⟩, 0, by simp, by simp⟩

/-- The loop ends at the year of a day, if it begins no earlier. -/
theorem yearOffsetLoop_spec {n : ℤ} (hn : 0 ≤ n) (hlt : n < daysPerYearInterval) {k : ℕ} (hk : k ≤ 400)
    (hnx : n < daysBefore (k + 1) ∨ k = 400) :
    yearOffsetLoop n k < 400 ∧ daysBefore (yearOffsetLoop n k) ≤ n ∧ n < daysBefore (yearOffsetLoop n k + 1) := by
  induction k with
  | zero =>
    refine ⟨Nat.zero_lt_succ 399, hn, ?_⟩
    exact hnx.resolve_right (by decide)
  | succ k ih =>
    rw [yearOffsetLoop]
    split_ifs with h
    · exact ih (Nat.le_of_succ_le hk) (.inl h)
    · have hne : k + 1 ≠ 400 := by
        rintro h400
        rw [h400] at h
        exact h hlt
      exact ⟨lt_of_le_of_ne hk hne, not_lt.1 h, hnx.resolve_right hne⟩

theorem extractYearOffset_spec (d : ℤ) : (extractYearOffset d).yearOffset < 400 ∧
      daysBefore (extractYearOffset d).yearOffset ≤ (extractYearOffset d).n ∧
      (extractYearOffset d).n < daysBefore ((extractYearOffset d).yearOffset + 1) ∧
      ∃ q, d = daysPerYearInterval * q + (extractYearOffset d).n ∧
        (extractYearOffset d).year = epochYear + yearInterval * q + (extractYearOffset d).yearOffset := by
  obtain ⟨hraised, q, hd, hyear⟩ := raiseDays_spec d epochYear
  obtain ⟨⟨hpos, hlt⟩, q', hn, hyear'⟩ := lowerDays_spec _ (raiseDays d epochYear).2 hraised
  rw [extractYearOffset]
  set n := (lowerDays (raiseDays d epochYear).1 (raiseDays d epochYear).2).1
  have hlt' : n < 146097 := hlt
  -- No year is shorter than 365 days.
  have hst : (n / 365).toNat ≤ 400 := by omega
  have hnx : n < daysBefore ((n / 365).toNat + 1) ∨ (n / 365).toNat = 400 := by
    rcases hst.lt_or_eq with h | h
    · refine .inl (lt_of_lt_of_le ?_ (le_daysBefore h))
      omega
    · exact .inr h
  obtain ⟨hoff, hbeg, hend⟩ := yearOffsetLoop_spec hpos hlt hst hnx
  exact ⟨hoff, hbeg, hend, q + q', by linarith, by linarith⟩

theorem isLeapYear_interval (q : ℤ) (i : ℕ) :
    isLeapYear (epochYear + yearInterval * q + i) = isLeapYear (1970 + i) := by
  rw [epochYear, yearInterval, isLeapYear, isLeapYear]
  have h4 : (1970 + 400 * q + (i : ℤ)) % 4 = (1970 + i) % 4 := by omega
  have h100 : (1970 + 400 * q + (i : ℤ)) % 100 = (1970 + i) % 100 := by omega
  have h400 : (1970 + 400 * q + (i : ℤ)) % 400 = (1970 + i) % 400 := by omega
  rw [h4, h100, h400]

theorem yearBegin_interval (q : ℤ) {i : ℕ} (hi : i < 400) :
    yearBegin (epochYear + yearInterval * q + i) = daysPerYearInterval * q + daysBefore i := by
  rw [epochYear, yearInterval, yearBegin]
  have hz : daysBefore 0 = 0 := rfl
  have hlst : daysBefore 400 = daysPerYearInterval := rfl
  split_ifs with hbef hafter
  · -- The first year of an interval is taken for the last of the interval before.
    rcases Nat.eq_zero_or_pos i with rfl | hpos
    · have hidx : (400 - (1970 - (1970 + 400 * q + ((0 : ℕ) : ℤ))) % 400).toNat = 400 := by omega
      have hfracs : (1970 - (1970 + 400 * q + ((0 : ℕ) : ℤ))) / 400 = -q := by omega
      dsimp only
      rw [hidx, hfracs]
      change daysBefore 400 - _ - _ = _
      linarith
    · have hidx : (400 - (1970 - (1970 + 400 * q + (i : ℤ))) % 400).toNat = i := by omega
      have hfracs : (1970 - (1970 + 400 * q + (i : ℤ))) / 400 = -q - 1 := by omega
      dsimp only
      rw [hidx, hfracs]
      change daysBefore i - _ - _ = _
      linarith
  · have hidx : ((1970 + 400 * q + (i : ℤ) - 2370) % 400).toNat = i := by omega
    have hfracs : (1970 + 400 * q + (i : ℤ) - 2370) / 400 = q - 1 := by omega
    dsimp only
    rw [hidx, hfracs]
    change daysBefore i + _ + _ = _
    linarith
  · have hq : q = 0 := by omega
    have hidx : (1970 + 400 * q + (i : ℤ) - 1970).toNat = i := by omega
    rw [hidx, hq]
    change daysBefore i = _
    linarith

/-! ## The round trip -/

/-- The date is not infinite, and not the number before them. -/
def InRange (d : ℤ) : Prop := ninfinity < d ∧ d < infinity

theorem convert_eq (d : ℤ) : ∃ (q : ℤ) (i k : ℕ), i < 400 ∧ d = daysPerYearInterval * q + daysBefore i + k ∧
    k < (if isLeapYear (epochYear + yearInterval * q + i) then 366 else 365) ∧
      convert d = ⟨epochYear + yearInterval * q + i, monthOfDay (isLeapYear (epochYear + yearInterval * q + i)) k,
        k - monthBegin (isLeapYear (epochYear + yearInterval * q + i))
          (monthOfDay (isLeapYear (epochYear + yearInterval * q + i)) k - 1) + 1⟩ := by
  obtain ⟨hoff, hbeg, hend, q, hd, hyear⟩ := extractYearOffset_spec d
  have hstep := daysBefore_succ _ hoff
  rw [← isLeapYear_interval q] at hstep
  have hk : ((extractYearOffset d).n - daysBefore (extractYearOffset d).yearOffset).toNat =
      (extractYearOffset d).n - daysBefore (extractYearOffset d).yearOffset :=
    Int.toNat_of_nonneg (sub_nonneg.2 hbeg)
  refine ⟨q, (extractYearOffset d).yearOffset,
    ((extractYearOffset d).n - daysBefore (extractYearOffset d).yearOffset).toNat, hoff, ?_, ?_, ?_⟩
  · linarith
  · split_ifs at hstep ⊢ <;> omega
  · rw [convert]
    change (if daysBefore ((extractYearOffset d).yearOffset + 1) - daysBefore (extractYearOffset d).yearOffset = 366
      then _ else _) = _
    rw [hstep, add_sub_cancel_left, hk, hyear]
    cases isLeapYear (epochYear + yearInterval * q + (extractYearOffset d).yearOffset) with
    | true => rfl
    | false => rfl

/-- The year of a date in range is not before the first one, and in that not before the first day. -/
theorem minDate_le {q : ℤ} {i k : ℕ} (hi : i < 400)
    (hk : k < if isLeapYear (epochYear + yearInterval * q + i) then 366 else 365)
    (hd : ninfinity < daysPerYearInterval * q + daysBefore i + k) :
    minYear ≤ epochYear + yearInterval * q + i ∧
      (epochYear + yearInterval * q + i = minYear → isLeapYear minYear = false ∧ 175 ≤ k) := by
  have hnx := daysBefore_succ i hi
  rw [← isLeapYear_interval q] at hnx
  have hend : daysBefore i + k < daysBefore (i + 1) := by
    split_ifs at hk hnx <;> omega
  have hlst : daysBefore 400 = 146097 := rfl
  have hfst : daysBefore 389 = 142079 := rfl
  have hend' : daysBefore (i + 1) ≤ daysBefore 400 := daysBefore_mono hi le_rfl
  rw [epochYear, yearInterval] at *
  rw [daysPerYearInterval, ninfinity] at hd
  rw [minYear]
  constructor
  · by_contra hlt
    have := daysBefore_mono (by omega : i + 1 ≤ 389) (by decide)
    omega
  · intro hyear
    have hi389 : i = 389 := by omega
    have hq : q = -14700 := by omega
    rw [hi389, hq, hfst] at hd
    exact ⟨by decide, by omega⟩

theorem le_maxDate {q : ℤ} {i k : ℕ} (hi : i < 400) (hd : daysPerYearInterval * q + daysBefore i + k < infinity) :
    epochYear + yearInterval * q + i ≤ maxYear ∧
      (epochYear + yearInterval * q + i = maxYear → isLeapYear maxYear = true ∧ k ≤ 191) := by
  have hlst : daysBefore 10 = 3652 := rfl
  have hnx : daysBefore 11 = 4018 := rfl
  have hpos : 0 ≤ daysBefore i := daysBefore_mono (Nat.zero_le i) hi.le
  rw [epochYear, yearInterval] at *
  rw [daysPerYearInterval, infinity] at hd
  rw [maxYear]
  constructor
  · by_contra hlt
    have := daysBefore_mono (by omega : 11 ≤ i) hi.le
    omega
  · intro hyear
    have hi10 : i = 10 := by omega
    have hq : q = 14699 := by omega
    rw [hi10, hq, hlst] at hd
    exact ⟨by decide, by omega⟩

theorem minMonth_le {k : ℕ} (hk : k < 365) (h : 175 ≤ k) : ¬((monthOfDay false k : ℤ) < minMonth ∨
    (monthOfDay false k : ℤ) = minMonth ∧ k - monthBegin false (monthOfDay false k - 1) + 1 < minDay) := by
  have hday : ∀ p ∈ monthPerDayOfYear.zipIdx, 175 ≤ p.2 → ¬((p.1 : ℤ) < minMonth ∨
      (p.1 : ℤ) = minMonth ∧ p.2 - monthBegin false (p.1 - 1) + 1 < minDay) := by decide
  exact hday _ (mk_monthOfDay_mem false hk) h

theorem le_maxMonth : ∀ k < 192, ¬((monthOfDay true k : ℤ) > maxMonth ∨
    (monthOfDay true k : ℤ) = maxMonth ∧ k - monthBegin true (monthOfDay true k - 1) + 1 > maxDay) := by
  have hday : ∀ p ∈ leapMonthPerDayOfYear.zipIdx, p.2 < 192 → ¬((p.1 : ℤ) > maxMonth ∨
      (p.1 : ℤ) = maxMonth ∧ p.2 - monthBegin true (p.1 - 1) + 1 > maxDay) := by decide
  exact fun k hk => hday _ (mk_monthOfDay_mem true (hk.trans (by decide))) hk

theorem isValid_convert {d : ℤ} (h : InRange d) :
    isValid (convert d).year (convert d).month (convert d).day = true := by
  obtain ⟨q, i, k, hi, hd, hk, hconv⟩ := convert_eq d
  rw [hconv]
  dsimp only
  obtain ⟨hmin, hminDay⟩ := minDate_le hi hk (hd ▸ h.1)
  obtain ⟨hmax, hmaxDay⟩ := le_maxDate hi (hd ▸ h.2)
  set year := epochYear + yearInterval * q + i
  obtain ⟨⟨hmon, hmon'⟩, hday, hday'⟩ := monthOfDay_spec (isLeapYear year) hk
  have hnotMin : ¬(year = minYear ∧ ((monthOfDay (isLeapYear year) k : ℤ) < minMonth ∨
      (monthOfDay (isLeapYear year) k : ℤ) = minMonth ∧
        k - monthBegin (isLeapYear year) (monthOfDay (isLeapYear year) k - 1) + 1 < minDay)) := by
    rintro ⟨hyear, hearly⟩
    obtain ⟨hleap, hk175⟩ := hminDay hyear
    rw [hyear, hleap] at hearly hk
    exact minMonth_le hk hk175 hearly
  have hnotMax : ¬(year = maxYear ∧ ((monthOfDay (isLeapYear year) k : ℤ) > maxMonth ∨
      (monthOfDay (isLeapYear year) k : ℤ) = maxMonth ∧
        k - monthBegin (isLeapYear year) (monthOfDay (isLeapYear year) k - 1) + 1 > maxDay)) := by
    rintro ⟨hyear, hlate⟩
    obtain ⟨hleap, hk191⟩ := hmaxDay hyear
    rw [hyear, hleap] at hlate hk
    exact le_maxMonth k (Nat.lt_succ_of_le hk191) hlate
  rw [isValid, if_neg (by simp; omega), if_neg (by simp; omega), if_neg (not_lt.2 hmin),
    if_neg (by simpa using hnotMin), if_neg (not_lt.2 hmax), if_neg (by simpa using hnotMax)]
  rw [monthDays] at hday'
  split_ifs with hleap
  · rw [hleap] at hday hday' ⊢
    simp only [if_true] at hday'
    rw [decide_eq_true_iff, Int.toNat_natCast]
    omega
  · rw [Bool.not_eq_true] at hleap
    rw [hleap] at hday hday' ⊢
    simp only [Bool.false_eq_true, if_false] at hday'
    rw [decide_eq_true_iff, Int.toNat_natCast]
    omega

theorem tryFromDate_convert {d : ℤ} (h : InRange d) :
    tryFromDate (convert d).year (convert d).month (convert d).day = some d := by
  have hvld := isValid_convert h
  obtain ⟨q, i, k, hi, hd, hk, hconv⟩ := convert_eq d
  rw [tryFromDate, hvld]
  rw [hconv]
  rw [if_neg (by decide), yearBegin_interval q hi, Option.some.injEq]
  have hidx : ((monthOfDay (isLeapYear (epochYear + yearInterval * q + i)) k : ℤ) - 1).toNat =
      monthOfDay (isLeapYear (epochYear + yearInterval * q + i)) k - 1 := by omega
  rw [hidx]
  change monthBegin _ _ + _ + _ = _
  linarith

/-- The limits of `IsValid` -/
theorem parts_convert {d : ℤ} (h : InRange d) :
    (minYear ≤ (convert d).year ∧ (convert d).year ≤ maxYear) ∧ (1 ≤ (convert d).month ∧ (convert d).month ≤ 12) ∧
      1 ≤ (convert d).day ∧ (convert d).day ≤ 31 := by
  obtain ⟨q, i, k, hi, hd, hk, hconv⟩ := convert_eq d
  obtain ⟨hmin, -⟩ := minDate_le hi hk (hd ▸ h.1)
  obtain ⟨hmax, -⟩ := le_maxDate hi (hd ▸ h.2)
  obtain ⟨⟨hmon, hmon'⟩, hday, hday'⟩ := monthOfDay_spec (isLeapYear (epochYear + yearInterval * q + i)) hk
  rw [hconv]
  have hle : ∀ leap, ∀ month < 13, monthDays leap month ≤ 31 := by decide
  have := hle (isLeapYear (epochYear + yearInterval * q + i)) _ (Nat.lt_succ_of_le hmon')
  dsimp only
  omega

end WfOpt.Date

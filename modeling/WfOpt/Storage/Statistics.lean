import WfOpt.Basic
import WfOpt.Lib.TruncatedOrder

/-!
# Statistics of columns

The statistics of a column (`BaseStatistics`) tell whether it can have `NULL`s and other values, and have bounds of
the latter: for integers the least and the largest one (`NumericStats`), for strings the first eight bytes of these
(`StringStats`). By the bounds, a comparison with a constant may be known to be true or false for all values that
are not `NULL` (`ColumnType.checkZonemap`).
-/

namespace WfOpt

open List

/-- `FilterPropagateResult` -/
inductive FilterPropagateResult
  | noPruningPossible
  | filterAlwaysTrue
  | filterAlwaysFalse
  deriving DecidableEq, Repr

/-- The comparisons of `ExpressionType`. -/
inductive ComparisonType
  | equal
  | notEqual
  | lessThan
  | greaterThan
  | lessThanOrEqualTo
  | greaterThanOrEqualTo
  | distinctFrom
  | notDistinctFrom
  deriving DecidableEq, Repr

/-- A comparison of values that are not `NULL`. -/
def ComparisonType.holds {α : Type*} [LinearOrder α] : ComparisonType → α → α → Bool
  | .equal, x, y | .notDistinctFrom, x, y => x = y
  | .notEqual, x, y | .distinctFrom, x, y => x ≠ y
  | .lessThan, x, y => x < y
  | .greaterThan, x, y => y < x
  | .lessThanOrEqualTo, x, y => x ≤ y
  | .greaterThanOrEqualTo, x, y => y ≤ x

namespace ComparisonType

variable {α : Type*} [LinearOrder α] {x y : α}

theorem holds_equal : equal.holds x y = true ↔ x = y := decide_eq_true_iff

theorem holds_notEqual : notEqual.holds x y = true ↔ x ≠ y := decide_eq_true_iff

theorem holds_lessThan : lessThan.holds x y = true ↔ x < y := decide_eq_true_iff

theorem holds_greaterThan : greaterThan.holds x y = true ↔ y < x := decide_eq_true_iff

theorem holds_lessThanOrEqualTo : lessThanOrEqualTo.holds x y = true ↔ x ≤ y := decide_eq_true_iff

theorem holds_greaterThanOrEqualTo : greaterThanOrEqualTo.holds x y = true ↔ y ≤ x := decide_eq_true_iff

end ComparisonType

/-- The types of columns: those of integers, with their least and largest value, and `VARCHAR`. -/
inductive ColumnType
  | integer (minimumValue maximumValue : ℤ)
  | varchar

/-- The values of a column. Strings are given by their bytes. -/
abbrev ColumnType.Value : ColumnType → Type
  | .integer _ _ => ℤ
  | .varchar => List UInt8

instance (t : ColumnType) : LinearOrder t.Value := match t with
  | .integer _ _ => Int.instLinearOrder
  | .varchar => inferInstanceAs (LinearOrder (List UInt8))

/-! ## Integers -/

/-- `NumericStatsData` -/
structure NumericStatsData where
  min : ℤ
  max : ℤ
  hasMin : Bool
  hasMax : Bool

namespace NumericStats

/-- `NumericStats::CreateEmpty` -/
def createEmpty (minimumValue maximumValue : ℤ) : NumericStatsData := ⟨maximumValue, minimumValue, true, true⟩

/-- `NumericStats::Update` -/
def update (d : NumericStatsData) (value : ℤ) : NumericStatsData := { d with
    min := if value < d.min then value else d.min
    max := if d.max < value then value else d.max }

/-- `NumericStats::Merge` -/
def merge (d other : NumericStatsData) : NumericStatsData where
  min := if other.hasMin ∧ d.hasMin ∧ other.min < d.min then other.min else d.min
  max := if other.hasMax ∧ d.hasMax ∧ d.max < other.max then other.max else d.max
  hasMin := other.hasMin && d.hasMin
  hasMax := other.hasMax && d.hasMax

/-- `NumericStats::HasMinMax` -/
def hasMinMax (d : NumericStatsData) : Bool := d.hasMin && d.hasMax && d.min ≤ d.max

/-- `ConstantExactRange` -/
def constantExactRange (min max constant : ℤ) : Bool := constant = min && constant = max

/-- `ConstantValueInRange` -/
def constantValueInRange (min max constant : ℤ) : Bool := !(constant < min || max < constant)

/-- `CheckZonemapTemplated`, for one constant -/
def checkConstant (comparisonType : ComparisonType) (min max constant : ℤ) : FilterPropagateResult :=
  match comparisonType with
  | .equal | .notDistinctFrom =>
    if constantExactRange min max constant then .filterAlwaysTrue
    else if constantValueInRange min max constant then .noPruningPossible
    else .filterAlwaysFalse
  | .notEqual | .distinctFrom =>
    if !constantValueInRange min max constant then .filterAlwaysTrue
    else if constantExactRange min max constant then .filterAlwaysFalse
    else .noPruningPossible
  | .greaterThanOrEqualTo =>
    if constant ≤ min then .filterAlwaysTrue
    else if constant ≤ max then .noPruningPossible
    else .filterAlwaysFalse
  | .greaterThan =>
    if constant < min then .filterAlwaysTrue
    else if constant < max then .noPruningPossible
    else .filterAlwaysFalse
  | .lessThanOrEqualTo =>
    if max ≤ constant then .filterAlwaysTrue
    else if min ≤ constant then .noPruningPossible
    else .filterAlwaysFalse
  | .lessThan =>
    if max < constant then .filterAlwaysTrue
    else if min < constant then .noPruningPossible
    else .filterAlwaysFalse

end NumericStats

/-! ## Strings -/

/-- `MAX_STRING_MINMAX_SIZE` -/
def maxStringMinMaxSize : ℕ := 8

/-- `StringStatsData`, its bounds. -/
structure StringStatsData where
  min : List UInt8
  max : List UInt8

namespace StringStats

/-- `StringStats::CreateEmpty` -/
def createEmpty : StringStatsData := ⟨List.replicate maxStringMinMaxSize 0xFF, List.replicate maxStringMinMaxSize 0⟩

/-- `StringValueComparison`, of the first `len` bytes -/
def stringValueComparison : List UInt8 → ℕ → List UInt8 → ℤ
  | x :: data, len + 1, y :: comparison =>
    if x < y then -1 else if y < x then 1 else stringValueComparison data len comparison
  | _, _, _ => 0

/-- `ConstructValue` -/
def constructValue (data : List UInt8) : List UInt8 :=
  let valueSize := if maxStringMinMaxSize < data.length then maxStringMinMaxSize else data.length
  data.take valueSize ++ List.replicate (maxStringMinMaxSize - valueSize) 0

/-- `StringStats::Update` -/
def update (d : StringStatsData) (value : List UInt8) : StringStatsData := let target := constructValue value
  { min := if stringValueComparison target maxStringMinMaxSize d.min < 0 then target else d.min
    max := if 0 < stringValueComparison target maxStringMinMaxSize d.max then target else d.max }

/-- `StringStats::Merge` -/
def merge (d other : StringStatsData) : StringStatsData where
  min := if stringValueComparison other.min maxStringMinMaxSize d.min < 0 then other.min else d.min
  max := if 0 < stringValueComparison other.max maxStringMinMaxSize d.max then other.max else d.max

/-- `StringStats::CheckZonemap`, for one constant -/
def checkConstant (comparisonType : ComparisonType) (min max constant : List UInt8) : FilterPropagateResult :=
  let minComp := stringValueComparison constant (Nat.min maxStringMinMaxSize constant.length) min
  let maxComp := stringValueComparison constant (Nat.min maxStringMinMaxSize constant.length) max
  match comparisonType with
  | .equal | .notDistinctFrom =>
    if 0 ≤ minComp ∧ maxComp ≤ 0 then .noPruningPossible else .filterAlwaysFalse
  | .notEqual | .distinctFrom =>
    if minComp < 0 ∨ 0 < maxComp then .filterAlwaysTrue else .noPruningPossible
  | .greaterThanOrEqualTo | .greaterThan =>
    if maxComp ≤ 0 then .noPruningPossible else .filterAlwaysFalse
  | .lessThan | .lessThanOrEqualTo =>
    if 0 ≤ minComp then .noPruningPossible else .filterAlwaysFalse

end StringStats

/-! ## Columns -/

namespace ColumnType

/-- The bounds in the statistics of a column. -/
abbrev StatsData : ColumnType → Type
  | .integer _ _ => NumericStatsData
  | .varchar => StringStatsData

/-- `BaseStatistics::CreateEmptyType` -/
def createEmpty : (t : ColumnType) → t.StatsData
  | .integer lo hi => NumericStats.createEmpty lo hi
  | .varchar => StringStats.createEmpty

def update : (t : ColumnType) → t.StatsData → t.Value → t.StatsData
  | .integer _ _ => NumericStats.update
  | .varchar => StringStats.update

def merge : (t : ColumnType) → t.StatsData → t.StatsData → t.StatsData
  | .integer _ _ => NumericStats.merge
  | .varchar => StringStats.merge

/-- The check for one constant. -/
def checkConstant : (t : ColumnType) → t.StatsData → ComparisonType → t.Value → FilterPropagateResult
  | .integer _ _ => fun d comparisonType => NumericStats.checkConstant comparisonType d.min d.max
  | .varchar => fun d comparisonType => StringStats.checkConstant comparisonType d.min d.max

/-- The loop over the constants of `CheckZonemap`. -/
def checkConstants (t : ColumnType) (d : t.StatsData) (comparisonType : ComparisonType) :
    List t.Value → FilterPropagateResult
  | [] => .filterAlwaysFalse
  | constant :: constants =>
    match t.checkConstant d comparisonType constant with
    | .noPruningPossible => .noPruningPossible
    | .filterAlwaysTrue => .filterAlwaysTrue
    | .filterAlwaysFalse => t.checkConstants d comparisonType constants

/-- There are bounds to check. -/
def hasBounds : (t : ColumnType) → t.StatsData → Bool
  | .integer _ _ => NumericStats.hasMinMax
  | .varchar => fun _ => true

/-- `NumericStats::CheckZonemap` and `StringStats::CheckZonemap` -/
def checkZonemap (t : ColumnType) (d : t.StatsData) (comparisonType : ComparisonType)
    (constants : List t.Value) : FilterPropagateResult :=
  if t.hasBounds d then t.checkConstants d comparisonType constants else .noPruningPossible

end ColumnType

/-- `BaseStatistics`, with `stats_union`. -/
structure BaseStatistics (t : ColumnType) where
  hasNull : Bool
  hasNoNull : Bool
  data : t.StatsData

namespace BaseStatistics

variable {t : ColumnType}

/-- `CreateEmpty`, with the flag for values that are not `NULL` set or cleared. -/
def createEmpty (t : ColumnType) (hasNoNull : Bool) : BaseStatistics t := ⟨false, hasNoNull, t.createEmpty⟩

/-- A value is added. -/
def update (s : BaseStatistics t) : Option t.Value → BaseStatistics t
  | some value => { s with hasNoNull := true, data := t.update s.data value }
  | none => { s with hasNull := true }

/-- `BaseStatistics::Merge` -/
def merge (s other : BaseStatistics t) : BaseStatistics t where
  hasNull := s.hasNull || other.hasNull
  hasNoNull := s.hasNoNull || other.hasNoNull
  data := t.merge s.data other.data

/-- The statistics that can be obtained for the values of a column. -/
inductive Collected : BaseStatistics t → List (Option t.Value) → Prop
  | createEmpty (hasNoNull : Bool) : Collected (createEmpty t hasNoNull) []
  | update {s : BaseStatistics t} {values : List (Option t.Value)} (value : Option t.Value) :
      Collected s values → Collected (s.update value) (values ++ [value])
  | merge {s other : BaseStatistics t} {values others : List (Option t.Value)} :
      Collected s values → Collected other others → Collected (s.merge other) (values ++ others)

end BaseStatistics

/-! ## Bounds -/

section Comparison

open StringStats

theorem stringValueComparison_iff {data comparison : List UInt8} {len : ℕ} (hdata : len ≤ data.length)
    (hcmpn : len ≤ comparison.length) :
    (stringValueComparison data len comparison < 0 ↔ data.take len < comparison.take len) ∧
      (0 < stringValueComparison data len comparison ↔ comparison.take len < data.take len) := by
  induction len generalizing data comparison with
  | zero => simp [stringValueComparison]
  | succ len ih =>
    cases data with
    | nil => exact nomatch hdata
    | cons x data =>
      cases comparison with
      | nil => exact nomatch hcmpn
      | cons y comparison =>
        rw [stringValueComparison, take_succ_cons, take_succ_cons, cons_lt_cons_iff, cons_lt_cons_iff]
        rcases lt_trichotomy x y with h | rfl | h
        · simp [h, h.not_gt, h.ne']
        · simp [ih (Nat.le_of_succ_le_succ hdata) (Nat.le_of_succ_le_succ hcmpn)]
        · simp [h, h.not_gt, h.ne']

/-- The first bytes, filled up with zeros. -/
theorem constructValue_eq (data : List UInt8) : constructValue data = truncate 0 maxStringMinMaxSize data := by
  rw [constructValue, truncate_eq]
  by_cases h : maxStringMinMaxSize < data.length
  · simp [h, Nat.sub_eq_zero_of_le h.le]
  · simp [h, take_of_length_le (not_lt.1 h)]

/-- Of two values, the smaller or the larger one is kept. -/
theorem ite_eq_min_max {α : Type*} [LinearOrder α] {p : Prop} [Decidable p] {x y : α} :
    ((p ↔ x < y) → (if p then x else y) = min x y) ∧ ((p ↔ y < x) → (if p then x else y) = max x y) := by
  refine ⟨fun hp => ?_, fun hp => ?_⟩
  · by_cases h : p
    · rw [if_pos h, min_eq_left (hp.1 h).le]
    · rw [if_neg h, min_eq_right (not_lt.1 fun h' => h (hp.2 h'))]
  · by_cases h : p
    · rw [if_pos h, max_eq_left (hp.1 h).le]
    · rw [if_neg h, max_eq_right (not_lt.1 fun h' => h (hp.2 h'))]

/-- The bounds have all their bytes. -/
structure StringStatsData.WellFormed (d : StringStatsData) : Prop where
  length_min : d.min.length = maxStringMinMaxSize
  length_max : d.max.length = maxStringMinMaxSize

section

variable {x y : List UInt8} (hx : x.length = maxStringMinMaxSize) (hy : y.length = maxStringMinMaxSize)

include hx hy

theorem replace_min :
    (if stringValueComparison x maxStringMinMaxSize y < 0 then x else y) = min x y := by
  refine ite_eq_min_max.1 ?_
  rw [(stringValueComparison_iff hx.ge hy.ge).1, take_of_length_le hx.le, take_of_length_le hy.le]

theorem replace_max :
    (if 0 < stringValueComparison x maxStringMinMaxSize y then x else y) = max x y := by
  refine ite_eq_min_max.2 ?_
  rw [(stringValueComparison_iff hx.ge hy.ge).2, take_of_length_le hx.le, take_of_length_le hy.le]

end

variable {d other : StringStatsData}

theorem StringStats.update_eq (h : d.WellFormed) (value : List UInt8) : StringStats.update d value =
      ⟨min (truncate 0 maxStringMinMaxSize value) d.min, max (truncate 0 maxStringMinMaxSize value) d.max⟩ := by
  rw [StringStats.update, constructValue_eq, replace_min (length_truncate _ _) h.length_min, replace_max (length_truncate _ _) h.length_max]

theorem StringStats.merge_eq (h : d.WellFormed) (h' : other.WellFormed) :
    StringStats.merge d other = ⟨min other.min d.min, max other.max d.max⟩ := by
  rw [StringStats.merge, replace_min h'.length_min h.length_min, replace_max h'.length_max h.length_max]

theorem length_min_max {x y : List UInt8} {n : ℕ} (hx : x.length = n) (hy : y.length = n) :
    (min x y).length = n ∧ (max x y).length = n := by
  constructor
  · rcases le_total x y with h | h
    · rw [min_eq_left h, hx]
    · rw [min_eq_right h, hy]
  · rcases le_total x y with h | h
    · rw [max_eq_right h, hy]
    · rw [max_eq_left h, hx]

theorem alwaysFalse_of_not {p : Prop} [Decidable p] {r : FilterPropagateResult} {b : Bool}
    (hr : r = if p then .noPruningPossible else .filterAlwaysFalse) (h : ¬p → b ≠ true) :
    (r = .filterAlwaysTrue → b = true) ∧ (r = .filterAlwaysFalse → b = false) := by
  subst hr
  split_ifs with hp
  · exact ⟨nofun, nofun⟩
  · exact ⟨nofun, fun _ => Bool.eq_false_iff.2 (h hp)⟩

/-- What the check knows by the bounds holds of the values within them. -/
theorem StringStats.checkConstant_sound (h : d.WellFormed) {v : List UInt8}
    (hmin : d.min ≤ truncate 0 maxStringMinMaxSize v) (hmax : truncate 0 maxStringMinMaxSize v ≤ d.max)
    (comparisonType : ComparisonType) (constant : List UInt8) :
    (checkConstant comparisonType d.min d.max constant = .filterAlwaysTrue →
        comparisonType.holds v constant = true) ∧
      (checkConstant comparisonType d.min d.max constant = .filterAlwaysFalse →
        comparisonType.holds v constant = false) := by
  have hbot : ∀ x : UInt8, 0 ≤ x := fun x => UInt8.le_iff_toNat_le.2 (Nat.zero_le _)
  have hlen : Nat.min maxStringMinMaxSize constant.length ≤ maxStringMinMaxSize := Nat.min_le_left _ _
  have hlen' : Nat.min maxStringMinMaxSize constant.length ≤ constant.length := Nat.min_le_right _ _
  have hbelow : stringValueComparison constant (Nat.min maxStringMinMaxSize constant.length) d.min < 0 →
      constant < v := by
    rw [(stringValueComparison_iff hlen' (hlen.trans h.length_min.ge)).1]
    intro hlt
    refine lt_of_take_lt hbot hlen hlen' (hlt.trans_le ?_)
    exact take_le_take (h.length_min.trans (length_truncate _ _).symm) hmin _
  have habv : 0 < stringValueComparison constant (Nat.min maxStringMinMaxSize constant.length) d.max →
      v < constant := by
    rw [(stringValueComparison_iff hlen' (hlen.trans h.length_max.ge)).2]
    intro hlt
    refine @lt_of_lt_take UInt8 0 _ _ _ _ _ hlen hlen' (lt_of_le_of_lt ?_ hlt)
    exact take_le_take ((length_truncate _ _).trans h.length_max.symm) hmax _
  have hne : ¬(0 ≤ stringValueComparison constant (Nat.min maxStringMinMaxSize constant.length) d.min ∧
      stringValueComparison constant (Nat.min maxStringMinMaxSize constant.length) d.max ≤ 0) → v ≠ constant := by
    rintro hnot rfl
    rcases not_and_or.1 hnot with hlt | hlt
    · exact lt_irrefl _ (hbelow (not_le.1 hlt))
    · exact lt_irrefl _ (habv (not_le.1 hlt))
  simp only [checkConstant]
  cases comparisonType with
  | equal | notDistinctFrom => exact alwaysFalse_of_not rfl fun hin => mt ComparisonType.holds_equal.1 (hne hin)
  | notEqual | distinctFrom =>
    dsimp only
    split_ifs with hout
    · have hv : v ≠ constant := hne fun hin => by omega
      exact ⟨fun _ => ComparisonType.holds_notEqual.2 hv, fun h => nomatch h⟩
    · exact ⟨(fun h => nomatch h), fun h => nomatch h⟩
  | greaterThanOrEqualTo =>
    refine alwaysFalse_of_not rfl fun hle => mt ComparisonType.holds_greaterThanOrEqualTo.1 ?_
    exact not_le.2 (habv (not_le.1 hle))
  | greaterThan =>
    exact alwaysFalse_of_not rfl fun hle => mt ComparisonType.holds_greaterThan.1 (habv (not_le.1 hle)).not_gt
  | lessThan =>
    exact alwaysFalse_of_not rfl fun hle => mt ComparisonType.holds_lessThan.1 (hbelow (not_le.1 hle)).not_gt
  | lessThanOrEqualTo =>
    refine alwaysFalse_of_not rfl fun hle => mt ComparisonType.holds_lessThanOrEqualTo.1 ?_
    exact not_le.2 (hbelow (not_le.1 hle))

end Comparison

namespace NumericStats

/-- What the check knows by the bounds holds of the values within them. -/
theorem checkConstant_sound {lo hi v : ℤ} (hmin : lo ≤ v) (hmax : v ≤ hi) (comparisonType : ComparisonType)
    (constant : ℤ) :
    (checkConstant comparisonType lo hi constant = .filterAlwaysTrue → comparisonType.holds v constant = true) ∧
      (checkConstant comparisonType lo hi constant = .filterAlwaysFalse →
        comparisonType.holds v constant = false) := by
  have hex : constantExactRange lo hi constant = true ↔ constant = lo ∧ constant = hi := by
    simp [constantExactRange]
  have hrng : constantValueInRange lo hi constant = true ↔ lo ≤ constant ∧ constant ≤ hi := by
    simp [constantValueInRange]
  rw [Bool.eq_false_iff]
  simp only [checkConstant]
  cases comparisonType with
  | equal | notDistinctFrom =>
    refine ⟨fun h => ComparisonType.holds_equal.2 ?_, fun h => mt ComparisonType.holds_equal.1 ?_⟩
    · dsimp only at h
      split_ifs at h with h₁ h₂
      rw [hex] at h₁
      omega
    · dsimp only at h
      split_ifs at h with h₁ h₂
      rw [hrng] at h₂
      omega
  | notEqual | distinctFrom =>
    refine ⟨fun h => ComparisonType.holds_notEqual.2 ?_, fun h => mt ComparisonType.holds_notEqual.1 ?_⟩
    · dsimp only at h
      split_ifs at h with h₁ h₂
      rw [Bool.not_eq_true', Bool.eq_false_iff, Ne, hrng] at h₁
      omega
    · dsimp only at h
      split_ifs at h with h₁ h₂
      rw [hex] at h₂
      omega
  | greaterThanOrEqualTo =>
    refine ⟨fun h => ComparisonType.holds_greaterThanOrEqualTo.2 ?_,
      fun h => mt ComparisonType.holds_greaterThanOrEqualTo.1 ?_⟩
    all_goals
      dsimp only at h
      split_ifs at h
      omega
  | greaterThan =>
    refine ⟨fun h => ComparisonType.holds_greaterThan.2 ?_, fun h => mt ComparisonType.holds_greaterThan.1 ?_⟩
    all_goals
      dsimp only at h
      split_ifs at h
      omega
  | lessThanOrEqualTo =>
    refine ⟨fun h => ComparisonType.holds_lessThanOrEqualTo.2 ?_,
      fun h => mt ComparisonType.holds_lessThanOrEqualTo.1 ?_⟩
    all_goals
      dsimp only at h
      split_ifs at h
      omega
  | lessThan =>
    refine ⟨fun h => ComparisonType.holds_lessThan.2 ?_, fun h => mt ComparisonType.holds_lessThan.1 ?_⟩
    all_goals
      dsimp only at h
      split_ifs at h
      omega

variable {d other : NumericStatsData} {v value : ℤ}

theorem update_bounds : (update d value).min ≤ value ∧ value ≤ (update d value).max ∧ (update d value).min ≤ d.min ∧
      d.max ≤ (update d value).max := by
  simp only [update]
  split_ifs <;> omega

theorem merge_bounds (hmin : d.hasMin = true ∧ other.hasMin = true) (hmax : d.hasMax = true ∧ other.hasMax = true) :
    (merge d other).min ≤ d.min ∧ (merge d other).min ≤ other.min ∧ d.max ≤ (merge d other).max ∧
      other.max ≤ (merge d other).max := by
  simp only [merge, hmin.1, hmin.2, hmax.1, hmax.2, true_and]
  split_ifs <;> omega

end NumericStats

namespace ColumnType

/-- The statistics have the form of those of the type. -/
def WellFormed : (t : ColumnType) → t.StatsData → Prop
  | .integer _ _ => fun d => d.hasMin = true ∧ d.hasMax = true
  | .varchar => StringStatsData.WellFormed

/-- A value is within the bounds. -/
def Within : (t : ColumnType) → t.StatsData → t.Value → Prop
  | .integer _ _ => fun d v => d.min ≤ v ∧ v ≤ d.max
  | .varchar => fun d v =>
    d.min ≤ truncate 0 maxStringMinMaxSize v ∧ truncate 0 maxStringMinMaxSize v ≤ d.max

variable {t : ColumnType} {d other : t.StatsData} {v value : t.Value}

theorem WellFormed.createEmpty : t.WellFormed t.createEmpty := by
  cases t with
  | integer lo hi => exact ⟨rfl, rfl⟩
  | varchar => exact ⟨rfl, rfl⟩

theorem WellFormed.update (h : t.WellFormed d) : t.WellFormed (t.update d value) := by
  cases t with
  | integer lo hi => exact h
  | varchar =>
    obtain ⟨hmin, hmax⟩ := h
    rw [ColumnType.update, StringStats.update_eq ⟨hmin, hmax⟩]
    exact ⟨(length_min_max (length_truncate _ _) hmin).1, (length_min_max (length_truncate _ _) hmax).2⟩

theorem WellFormed.merge (h : t.WellFormed d) (h' : t.WellFormed other) : t.WellFormed (t.merge d other) := by
  cases t with
  | integer lo hi => exact ⟨Bool.and_eq_true_iff.2 ⟨h'.1, h.1⟩, Bool.and_eq_true_iff.2 ⟨h'.2, h.2⟩⟩
  | varchar =>
    rw [ColumnType.merge, StringStats.merge_eq h h']
    exact ⟨(length_min_max h'.1 h.1).1, (length_min_max h'.2 h.2).2⟩

/-- A value that is added is within the bounds. -/
theorem within_update_self (h : t.WellFormed d) : t.Within (t.update d v) v := by
  cases t with
  | integer lo hi =>
    obtain ⟨hmin, hmax, -, -⟩ := NumericStats.update_bounds (d := d)
    exact ⟨hmin, hmax⟩
  | varchar =>
    rw [ColumnType.update, StringStats.update_eq h]
    exact ⟨min_le_left _ _, le_max_left _ _⟩

theorem Within.update (hv : t.Within d v) (h : t.WellFormed d) : t.Within (t.update d value) v := by
  cases t with
  | integer lo hi =>
    obtain ⟨-, -, hmin, hmax⟩ := NumericStats.update_bounds (d := d)
    exact ⟨hmin.trans hv.1, hv.2.trans hmax⟩
  | varchar =>
    rw [ColumnType.update, StringStats.update_eq h]
    exact ⟨(min_le_right _ _).trans hv.1, hv.2.trans (le_max_right _ _)⟩

theorem Within.merge (hv : t.Within d v ∨ t.Within other v) (h : t.WellFormed d) (h' : t.WellFormed other) :
    t.Within (t.merge d other) v := by
  cases t with
  | integer lo hi =>
    obtain ⟨h₁, h₂, h₃, h₄⟩ := NumericStats.merge_bounds ⟨h.1, h'.1⟩ ⟨h.2, h'.2⟩
    rcases hv with hv | hv
    · exact ⟨h₁.trans hv.1, hv.2.trans h₃⟩
    · exact ⟨h₂.trans hv.1, hv.2.trans h₄⟩
  | varchar =>
    rw [ColumnType.merge, StringStats.merge_eq h h']
    rcases hv with hv | hv
    · exact ⟨(min_le_right _ _).trans hv.1, hv.2.trans (le_max_right _ _)⟩
    · exact ⟨(min_le_left _ _).trans hv.1, hv.2.trans (le_max_left _ _)⟩

theorem Within.checkConstant (hv : t.Within d v) (h : t.WellFormed d) (comparisonType : ComparisonType)
    (constant : t.Value) :
    (t.checkConstant d comparisonType constant = .filterAlwaysTrue → comparisonType.holds v constant = true) ∧
      (t.checkConstant d comparisonType constant = .filterAlwaysFalse →
        comparisonType.holds v constant = false) := by
  cases t with
  | integer lo hi => exact NumericStats.checkConstant_sound hv.1 hv.2 comparisonType constant
  | varchar => exact StringStats.checkConstant_sound h hv.1 hv.2 comparisonType constant

/-- The check of several constants knows that one comparison holds, or that none does. -/
theorem Within.checkZonemap (hv : t.Within d v) (h : t.WellFormed d) (comparisonType : ComparisonType)
    (constants : List t.Value) :
    (t.checkZonemap d comparisonType constants = .filterAlwaysTrue →
        ∃ c ∈ constants, comparisonType.holds v c = true) ∧
      (t.checkZonemap d comparisonType constants = .filterAlwaysFalse →
        ∀ c ∈ constants, comparisonType.holds v c = false) := by
  rw [ColumnType.checkZonemap]
  split_ifs
  · induction constants with
    | nil => exact ⟨(fun h => nomatch h), fun _ c hc => nomatch hc⟩
    | cons c constants ih =>
      obtain ⟨htrue, hfls⟩ := hv.checkConstant h comparisonType c
      rw [checkConstants]
      cases hc : t.checkConstant d comparisonType c with
      | noPruningPossible => exact ⟨(fun h => nomatch h), fun h => nomatch h⟩
      | filterAlwaysTrue => exact ⟨fun _ => ⟨c, mem_cons_self, htrue hc⟩, fun h => nomatch h⟩
      | filterAlwaysFalse =>
        refine ⟨fun h => ?_, fun h => forall_mem_cons.2 ⟨hfls hc, ih.2 h⟩⟩
        obtain ⟨c', hc', hhld⟩ := ih.1 h
        exact ⟨c', mem_cons_of_mem c hc', hhld⟩
  · exact ⟨(fun h => nomatch h), fun h => nomatch h⟩

end ColumnType

namespace BaseStatistics

variable {t : ColumnType} {s : BaseStatistics t} {values : List (Option t.Value)}

/-- A value can be in the column: its flag is set, and it is within the bounds. -/
def Allows (s : BaseStatistics t) : Option t.Value → Prop
  | some v => s.hasNoNull = true ∧ t.Within s.data v
  | none => s.hasNull = true

theorem Collected.wellFormed (h : s.Collected values) : t.WellFormed s.data := by
  induction h with
  | createEmpty b => exact ColumnType.WellFormed.createEmpty
  | update value _ ih =>
    cases value with
    | some v => exact ih.update
    | none => exact ih
  | merge _ _ ih ih' => exact ih.merge ih'

theorem Collected.allows (h : s.Collected values) : ∀ v ∈ values, s.Allows v := by
  induction h with
  | createEmpty b => exact fun v hv => nomatch hv
  | @update s values value hs ih =>
    intro v hv
    rw [mem_append, mem_singleton] at hv
    cases value with
    | some value =>
      rcases hv with hv | rfl
      · have := ih v hv
        cases v with
        | some v => exact ⟨rfl, this.2.update hs.wellFormed⟩
        | none => exact this
      · exact ⟨rfl, ColumnType.within_update_self hs.wellFormed⟩
    | none =>
      rcases hv with hv | rfl
      · have := ih v hv
        cases v with
        | some v => exact this
        | none => rfl
      · rfl
  | @merge s other values others hs hoth ih ih' =>
    intro v hv
    rw [mem_append] at hv
    cases v with
    | some v =>
      refine ⟨Bool.or_eq_true_iff.2 ?_, ColumnType.Within.merge ?_ hs.wellFormed hoth.wellFormed⟩
      · exact hv.imp (fun h => (ih (some v) h).1) fun h => (ih' (some v) h).1
      · exact hv.imp (fun h => (ih (some v) h).2) fun h => (ih' (some v) h).2
    | none => exact Bool.or_eq_true_iff.2 (hv.imp (ih none) (ih' none))

theorem Collected.mem_of_hasNull (h : s.Collected values) (hnl : s.hasNull = true) : none ∈ values := by
  induction h with
  | createEmpty b => exact nomatch hnl
  | update value _ ih =>
    rw [mem_append, mem_singleton]
    cases value with
    | some v => exact .inl (ih hnl)
    | none => exact .inr rfl
  | merge _ _ ih ih' =>
    rw [mem_append]
    exact (Bool.or_eq_true_iff.1 hnl).imp ih ih'

end BaseStatistics

end WfOpt

import WfOpt.Lib.ThreeValued
import WfOpt.Optimizer.FilterPushdown

/-!
# Simplifying comparisons of `date_trunc`

`DateTruncSimplificationRule` compares the column itself with the start of a unit, in place of `date_trunc` of the
column. `preserves_iff` tells when this keeps the value of the comparison. It does not for `<=` at the start of the
next unit, for `=` and `<>` with a constant inside a unit where the column is `NULL`, and where the cast of a bound to
the type of the column moves it, as for a column of days and hours.
-/

namespace WfOpt.DateTruncSimplification

/-- `DatePartSpecifier` -/
inductive DatePartSpecifier
  | year | month | day | decade | century | millennium
  | microseconds | milliseconds | second | minute | hour
  | dow | isodow | week | isoyear | quarter | doy | yearweek
  | era | timezone | timezoneHour | timezoneMinute | epoch | julianDay
  deriving DecidableEq

/-- `DatePartToFunc` -/
def datePartToFunc : DatePartSpecifier → String
  | .year => "to_years"
  | .month => "to_months"
  | .day => "to_days"
  | .decade => "to_decades"
  | .century => "to_centuries"
  | .millennium => "to_millennia"
  | .microseconds => "to_microseconds"
  | .milliseconds => "to_milliseconds"
  | .second => "to_seconds"
  | .minute => "to_minutes"
  | .hour => "to_hours"
  | .week => "to_weeks"
  | .quarter => "to_quarters"
  | _ => ""

/-- The types of the column -/
inductive LogicalTypeId
  | date
  | timestamp
  | timestampTz
  deriving DecidableEq

/-- The type of `date_trunc` of a column, that of the constant it is compared with (`DateTruncBind`) -/
def truncType : DatePartSpecifier → LogicalTypeId → LogicalTypeId
  | _, .timestampTz => .timestampTz
  | .millennium, _ | .century, _ | .decade, _ | .year, _ | .quarter, _ | .month, _ | .week, _ | .yearweek, _
  | .isoyear, _ | .day, _ | .dow, _ | .isodow, _ | .doy, _ | .julianDay, _ => .date
  | _, _ => .timestamp

/-- A part and the type of the column, with `date_trunc`, adding one unit, and the cast to DATE on instants. -/
structure DateTrunc (V : Type) [LinearOrder V] where
  part : DatePartSpecifier
  columnType : LogicalTypeId
  dateTrunc : V → V
  addInterval : V → V
  toDate : V → V
  dateTrunc_mono : Monotone dateTrunc
  dateTrunc_le : ∀ v, dateTrunc v ≤ v
  dateTrunc_idem : ∀ v, dateTrunc (dateTrunc v) = dateTrunc v
  /-- The next unit begins after the one of `v`, -/
  lt_next : ∀ v, dateTrunc v < dateTrunc (addInterval v)
  /-- and no unit is between them. -/
  next_le : ∀ v w, dateTrunc v < dateTrunc w → dateTrunc (addInterval v) ≤ dateTrunc w
  toDate_mono : Monotone toDate
  toDate_le : ∀ v, toDate v ≤ v
  toDate_idem : ∀ v, toDate (toDate v) = toDate v

variable {V : Type} [LinearOrder V] (F : DateTrunc V)

/-- The value of the cast to a type -/
def DateTrunc.cast : LogicalTypeId → V → V
  | .date => F.toDate
  | _ => id

/-- An operand of a comparison -/
inductive Operand (V : Type)
  | column
  | dateTrunc
  | constant (value : Option V)

/-- The expressions before and after the rule -/
inductive Expression (V : Type)
  | constant (value : Bool)
  | isNull
  | isNotNull
  | comparison (comparisonType : ComparisonType) (left right : Operand V)
  | conjunctionAnd (left right : Expression V)
  | conjunctionOr (left right : Expression V)

def Operand.evaluate (x : Option V) : Operand V → Option V
  | .column => x
  | .dateTrunc => x.map F.dateTrunc
  | .constant value => value

/-- The value of an expression for a value of the column -/
def Expression.evaluate (x : Option V) : Expression V → Option Bool
  | .constant value => some value
  | .isNull => some x.isNone
  | .isNotNull => some x.isSome
  | .comparison comparisonType left right => comparisonType.evaluate (left.evaluate F x) (right.evaluate F x)
  | .conjunctionAnd left right => ThreeValued.all [left.evaluate x, right.evaluate x]
  | .conjunctionOr left right => ThreeValued.any [left.evaluate x, right.evaluate x]

/-- A comparison with its operands as they were ordered -/
def compare (colIsLhs : Bool) (comparisonType : ComparisonType) (operand constant : Operand V) : Expression V :=
  if colIsLhs then .comparison comparisonType operand constant else .comparison comparisonType constant operand

/-- A bound of the type of `date_trunc` as one of the type of the column -/
def columnBound (v : V) : V := if truncType F.part F.columnType ≠ F.columnType then F.cast F.columnType v else v

/-- `CreateTrunc` -/
def createTrunc (rhs : Option V) : Option V := rhs.map fun c => columnBound F (F.dateTrunc c)

/-- The start of the next unit -/
def next (c : V) : V := F.dateTrunc (F.addInterval c)

/-- `CreateTruncAdd`, with no result if the part is no interval -/
def createTruncAdd (rhs : Option V) : Option (Option V) :=
  if datePartToFunc F.part = "" then none else some (rhs.map fun c => columnBound F (next F c))

/-- `DateIsTruncated` -/
def dateIsTruncated : Option V → Bool
  | none => true
  | some c => F.dateTrunc c = c

/-- `DateTruncSimplificationRule::Apply`, with no result where the expression is kept -/
def apply (colIsLhs : Bool) (comparisonType : ComparisonType) (rhs : Option V) : Option (Expression V) :=
  let rhsComparisonType := if colIsLhs then comparisonType else comparisonType.flip
  match rhsComparisonType with
  | .equal | .notDistinctFrom =>
    if rhsComparisonType = .notDistinctFrom ∧ rhs = none then some .isNull
    else if !dateIsTruncated F rhs then some (.constant false)
    else do
      let trunc := createTrunc F rhs
      let truncAdd ← createTruncAdd F rhs
      let gteq := .comparison .greaterThanOrEqualTo .column (.constant trunc)
      let lt := .comparison .lessThan .column (.constant truncAdd)
      if rhsComparisonType = .notDistinctFrom then
        return .conjunctionAnd (.conjunctionAnd gteq lt) .isNotNull
      return .conjunctionAnd gteq lt
  | .notEqual | .distinctFrom =>
    if rhsComparisonType = .distinctFrom ∧ rhs = none then some .isNotNull
    else if !dateIsTruncated F rhs then some (.constant true)
    else do
      let trunc := createTrunc F rhs
      let truncAdd ← createTruncAdd F rhs
      let lt := .comparison .lessThan .column (.constant trunc)
      let gteq := .comparison .greaterThanOrEqualTo .column (.constant truncAdd)
      if rhsComparisonType = .distinctFrom then
        return .conjunctionOr (.conjunctionOr gteq lt) .isNull
      return .conjunctionOr gteq lt
  | .lessThan | .greaterThanOrEqualTo =>
    if !dateIsTruncated F rhs then do
      let trunc ← createTruncAdd F rhs
      return compare colIsLhs comparisonType .column (.constant trunc)
    else
      -- The constant as it is, with the cast of `CastAndEvaluate`.
      some (compare colIsLhs comparisonType .column (.constant (rhs.map (columnBound F))))
  | .lessThanOrEqualTo | .greaterThan => do
    let trunc ← createTruncAdd F rhs
    if rhsComparisonType = .greaterThan then
      return compare colIsLhs (if colIsLhs then .greaterThanOrEqualTo else .lessThanOrEqualTo) .column
        (.constant trunc)
    return compare colIsLhs comparisonType .column (.constant trunc)

/-- The comparison that is simplified -/
def original (colIsLhs : Bool) (comparisonType : ComparisonType) (rhs : Option V) : Expression V :=
  compare colIsLhs comparisonType .dateTrunc (.constant rhs)

/-- The expression after the rule -/
def simplified (colIsLhs : Bool) (comparisonType : ComparisonType) (rhs : Option V) : Expression V :=
  (apply F colIsLhs comparisonType rhs).getD (original colIsLhs comparisonType rhs)

/-- The value is one of the type of the column. -/
def IsColumnValue (x : V) : Prop := F.cast F.columnType x = x

/-- The cast of a bound to the type of the column moves it, to `x`: for a day `x`, the bound is inside this day. -/
def MovesTo (bound x : V) : Prop := columnBound F bound = x ∧ bound ≠ x

/-- The condition under which the simplification keeps the value, for the comparison with the column on the left -/
def Keeps : ComparisonType → (rhs x : Option V) → Prop
  | .equal, some c, x | .notEqual, some c, x =>
    (F.dateTrunc c ≠ c → x ≠ none) ∧ (F.dateTrunc c = c → ∀ v ∈ x, (MovesTo F c v ↔ MovesTo F (next F c) v))
  | .notDistinctFrom, some c, some v | .distinctFrom, some c, some v =>
    F.dateTrunc c = c → (MovesTo F c v ↔ MovesTo F (next F c) v)
  | .lessThan, some c, some v | .greaterThanOrEqualTo, some c, some v =>
    ¬MovesTo F (if F.dateTrunc c = c then c else next F c) v
  | .lessThanOrEqualTo, some c, some v => v ≠ next F c
  | .greaterThan, some c, some v => ¬MovesTo F (next F c) v
  | _, _, _ => True

variable {F} {b c v : V}

theorem columnBound_le (v : V) : columnBound F v ≤ v := by
  rw [columnBound]
  split_ifs
  · cases F.columnType with
    | date => exact F.toDate_le v
    | timestamp | timestampTz => exact le_rfl
  · exact le_rfl

theorem columnBound_mono : Monotone (columnBound F) := by
  intro v w h
  simp only [columnBound]
  split_ifs
  · cases F.columnType with
    | date => exact F.toDate_mono h
    | timestamp | timestampTz => exact h
  · exact h

theorem IsColumnValue.columnBound_eq (h : IsColumnValue F v) : columnBound F v = v := by
  rw [columnBound]
  split_ifs
  · exact h
  · rfl

/-- The values of the column from the bound on, after its cast -/
theorem IsColumnValue.columnBound_le_iff (h : IsColumnValue F v) : columnBound F b ≤ v ↔ b ≤ v ∨ MovesTo F b v := by
  constructor
  · intro hle
    rcases le_or_gt b v with hb | hb
    · exact .inl hb
    · have heq : v ≤ columnBound F b := h.columnBound_eq ▸ columnBound_mono hb.le
      exact .inr ⟨le_antisymm hle heq, hb.ne'⟩
  · rintro (hb | hb)
    · exact (columnBound_le b).trans hb
    · exact hb.1.le

theorem MovesTo.lt (h : MovesTo F b v) : v < b := lt_of_le_of_ne (h.1 ▸ columnBound_le b) h.2.symm

theorem dateTrunc_next (c : V) : F.dateTrunc (next F c) = next F c := F.dateTrunc_idem _

theorem dateTrunc_le_iff : F.dateTrunc v ≤ c ↔ v < next F c := by
  constructor
  · intro h
    by_contra hnx
    have hle : next F c ≤ c := dateTrunc_next (F := F) c ▸ (F.dateTrunc_mono (not_lt.1 hnx)).trans h
    exact absurd (F.dateTrunc_mono hle) (not_le.2 ((dateTrunc_next c).symm ▸ F.lt_next c))
  · intro h
    by_contra hc
    have hlt : F.dateTrunc c < F.dateTrunc v := (F.dateTrunc_le c).trans_lt (not_le.1 hc)
    exact absurd ((F.next_le c v hlt).trans (F.dateTrunc_le v)) (not_le.2 h)

theorem dateTrunc_lt_iff : F.dateTrunc v < c ↔ v < if F.dateTrunc c = c then c else next F c := by
  split_ifs with hc
  · constructor
    · intro h
      by_contra hle
      exact absurd (F.dateTrunc_mono (not_lt.1 hle)) (not_le.2 (hc.symm ▸ h))
    · exact (F.dateTrunc_le v).trans_lt
  · rw [← dateTrunc_le_iff]
    exact ⟨le_of_lt, fun h => lt_of_le_of_ne h fun heq => hc (heq ▸ F.dateTrunc_idem v)⟩

theorem dateTrunc_eq_iff : F.dateTrunc v = c ↔ F.dateTrunc c = c ∧ c ≤ v ∧ v < next F c := by
  constructor
  · rintro rfl
    exact ⟨F.dateTrunc_idem v, F.dateTrunc_le v, dateTrunc_le_iff.1 le_rfl⟩
  · rintro ⟨hc, hle, hlt⟩
    exact le_antisymm (dateTrunc_le_iff.2 hlt) (hc.symm.trans_le (F.dateTrunc_mono hle))

/-- The values in a unit, after the cast of its bounds -/
theorem IsColumnValue.unit_iff (h : IsColumnValue F v) (hc : F.dateTrunc c = c) :
    ((columnBound F c ≤ v ∧ v < columnBound F (next F c)) ↔ F.dateTrunc v = c) ↔
      (MovesTo F c v ↔ MovesTo F (next F c) v) := by
  have hlt : c < next F c := hc.symm.trans_lt (F.lt_next c)
  rw [dateTrunc_eq_iff, and_iff_right hc]
  simp only [← not_le, h.columnBound_le_iff]
  by_cases hmove : MovesTo F c v
  · have hnot : ¬next F c ≤ v := not_le.2 (hmove.lt.trans hlt)
    have hnot' : ¬c ≤ v := not_le.2 hmove.lt
    tauto
  · by_cases hmove' : MovesTo F (next F c) v
    · have hle : c ≤ v := by
        refine (h.columnBound_le_iff.1 ?_).resolve_right hmove
        exact (columnBound_mono hlt.le).trans hmove'.1.le
      have hnot : ¬next F c ≤ v := not_le.2 hmove'.lt
      tauto
    · tauto

theorem IsColumnValue.outside_iff (h : IsColumnValue F v) (hc : F.dateTrunc c = c) :
    ((columnBound F (next F c) ≤ v ∨ v < columnBound F c) ↔ ¬F.dateTrunc v = c) ↔
      (MovesTo F c v ↔ MovesTo F (next F c) v) := by
  rw [← h.unit_iff hc, ← not_lt (b := columnBound _ _), or_comm, ← not_le, ← not_and_or, not_iff_not]

/-- A bound does for the column what it does before its cast, unless this moves it to the value. -/
theorem IsColumnValue.bound_iff (h : IsColumnValue F v) (b : V) :
    (columnBound F b ≤ v ↔ b ≤ v) ↔ ¬MovesTo F b v := by
  rw [h.columnBound_le_iff, or_iff_left_iff_imp]
  exact ⟨fun himp hmove => not_le.2 hmove.lt (himp hmove), fun hnot hmove => absurd hmove hnot⟩

theorem IsColumnValue.le_bound_iff (h : IsColumnValue F v) (c : V) :
    (v ≤ columnBound F (next F c) ↔ F.dateTrunc v ≤ c) ↔ v ≠ next F c := by
  rw [dateTrunc_le_iff]
  have hle : v ≤ columnBound F (next F c) ↔ v ≤ next F c :=
    ⟨fun hv => hv.trans (columnBound_le _), fun hv => h.columnBound_eq ▸ columnBound_mono hv⟩
  rw [hle]
  constructor
  · exact fun hiff heq => absurd (hiff.1 heq.le) heq.not_lt
  · exact fun hne => ⟨fun hv => lt_of_le_of_ne hv hne, le_of_lt⟩

section

variable (hpart : datePartToFunc F.part ≠ "") (comparisonType : ComparisonType)

include hpart

/-- The comparison with a constant that is not `NULL`, for a value of the column -/
theorem preserves_some
    (hv : IsColumnValue F v) :
    (simplified F true comparisonType (some c)).evaluate F (some v) =
        (original true comparisonType (some c)).evaluate F (some v) ↔
      Keeps F comparisonType (some c) (some v) := by
  have hbelow : c ≤ F.dateTrunc v ↔ (if F.dateTrunc c = c then c else next F c) ≤ v :=
    le_iff_le_iff_lt_iff_lt.2 dateTrunc_lt_iff
  have habv : c < F.dateTrunc v ↔ next F c ≤ v := not_le.symm.trans ((not_congr dateTrunc_le_iff).trans not_lt)
  by_cases hc : F.dateTrunc c = c <;> simp only [hc] at hbelow <;> cases comparisonType <;>
    simp [simplified, apply, Keeps, createTruncAdd, createTrunc, hpart, dateIsTruncated, original, compare,
      Expression.evaluate, Operand.evaluate, ComparisonType.evaluate, ComparisonType.holds, ThreeValued.all_pair,
      ThreeValued.any_pair, hc]
  case pos.equal | pos.notDistinctFrom =>
    rw [← Bool.decide_and, decide_eq_decide]
    exact hv.unit_iff hc
  case pos.notEqual | pos.distinctFrom =>
    rw [← Bool.decide_or, ← decide_not, decide_eq_decide]
    exact hv.outside_iff hc
  case neg.equal | neg.notEqual | neg.distinctFrom | neg.notDistinctFrom =>
    exact fun heq => hc (heq ▸ F.dateTrunc_idem v)
  case pos.lessThan | neg.lessThan =>
    rw [← le_iff_le_iff_lt_iff_lt, hbelow]
    exact hv.bound_iff _
  case pos.greaterThanOrEqualTo | neg.greaterThanOrEqualTo =>
    rw [hbelow]
    exact hv.bound_iff _
  case pos.greaterThan | neg.greaterThan =>
    rw [habv]
    exact hv.bound_iff _
  case pos.lessThanOrEqualTo | neg.lessThanOrEqualTo => exact hv.le_bound_iff c

theorem preserves_left (rhs x : Option V)
    (hx : ∀ v ∈ x, IsColumnValue F v) :
    (simplified F true comparisonType rhs).evaluate F x = (original true comparisonType rhs).evaluate F x ↔
      Keeps F comparisonType rhs x := by
  rcases rhs with _ | c
  · cases comparisonType <;> rcases x with _ | v <;>
      simp [simplified, apply, Keeps, createTruncAdd, createTrunc, hpart, dateIsTruncated, original, compare,
        Expression.evaluate, Operand.evaluate, ComparisonType.evaluate, ThreeValued.all, ThreeValued.any]
  · rcases x with _ | v
    · cases comparisonType <;> by_cases hc : F.dateTrunc c = c <;>
        simp [simplified, apply, Keeps, createTruncAdd, createTrunc, hpart, dateIsTruncated, original, compare,
          Expression.evaluate, Operand.evaluate, ComparisonType.evaluate, ThreeValued.all, ThreeValued.any, hc]
    · exact preserves_some hpart comparisonType (hx v rfl)

end

/-- The simplification of a comparison with the column on the right is that of the flipped one. -/
theorem simplified_false (hpart : datePartToFunc F.part ≠ "") (comparisonType : ComparisonType) (rhs x : Option V) :
    (simplified F false comparisonType rhs).evaluate F x =
      (simplified F true comparisonType.flip rhs).evaluate F x := by
  have hcmp (t : ComparisonType) (l r : Operand V) :
      (compare false t l r).evaluate F x = (compare true t.flip l r).evaluate F x :=
    (ComparisonType.evaluate_flip t _ _).symm
  rcases rhs with _ | c
  · cases comparisonType <;>
      simp [simplified, apply, ComparisonType.flip, createTruncAdd, hpart, dateIsTruncated, hcmp]
  · cases comparisonType <;> by_cases hc : F.dateTrunc c = c <;>
      simp [simplified, apply, ComparisonType.flip, createTruncAdd, hpart, dateIsTruncated, hc, hcmp]

/-- For a part that is an interval, the expression after the rule has the value of the comparison exactly under the
    condition. -/
theorem preserves_iff (hpart : datePartToFunc F.part ≠ "") (colIsLhs : Bool) (comparisonType : ComparisonType)
    (rhs x : Option V) (hx : ∀ v ∈ x, IsColumnValue F v) :
    (simplified F colIsLhs comparisonType rhs).evaluate F x = (original colIsLhs comparisonType rhs).evaluate F x ↔
      Keeps F (if colIsLhs then comparisonType else comparisonType.flip) rhs x := by
  cases colIsLhs with
  | true => exact preserves_left hpart comparisonType rhs x hx
  | false =>
    have horiginal : (original false comparisonType rhs).evaluate F x =
        (original true comparisonType.flip rhs).evaluate F x := (ComparisonType.evaluate_flip comparisonType _ _).symm
    rw [simplified_false hpart, horiginal]
    exact preserves_left hpart comparisonType.flip rhs x hx

/-- Days of 24 hours, which `date_trunc` truncates to the day, on instants in microseconds -/
def dateTruncDay : DateTrunc ℤ where
  part := .day
  columnType := .timestamp
  dateTrunc v := v - v % 86400000000
  addInterval v := v + 86400000000
  toDate v := v - v % 86400000000
  dateTrunc_mono v w h := by dsimp only; omega
  dateTrunc_le v := by omega
  dateTrunc_idem v := by omega
  lt_next v := by omega
  next_le v w h := by omega
  toDate_mono v w h := by dsimp only; omega
  toDate_le v := by omega
  toDate_idem v := by omega

/-- `date_trunc('day', x) < DATE '1970-01-02'` in the last microsecond of 1970-01-01 -/
theorem preserves_day :
    (simplified dateTruncDay true .lessThan (some 86400000000)).evaluate dateTruncDay (some 86399999999) =
      (original true .lessThan (some 86400000000)).evaluate dateTruncDay (some 86399999999) :=
  (preserves_iff (F := dateTruncDay) (by decide) true .lessThan _ _ fun _ _ => rfl).2 fun h => absurd h.1 (by decide)

/-- `date_trunc('day', x) <= DATE '1970-01-01'` is false at `x = 1970-01-02 00:00:00`, and true after the rule. -/
theorem not_preserves : ∃ e, apply dateTruncDay true .lessThanOrEqualTo (some 0) = some e ∧
    e.evaluate dateTruncDay (some 86400000000) = some true ∧
    (original true .lessThanOrEqualTo (some 0)).evaluate dateTruncDay (some 86400000000) = some false :=
  ⟨_, rfl, by decide, by decide⟩

end WfOpt.DateTruncSimplification

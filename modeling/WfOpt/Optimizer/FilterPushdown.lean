import WfOpt.Common.Utf8Proc
import WfOpt.Optimizer.LikeRule
import WfOpt.Planner.TableFilter

/-!
# Pushing filters into table scans

`FilterCombiner::TryPushdownExpression` turns a filter on a column into table filters, and tells whether these do all
that the filter does (`PUSHED_DOWN_FULLY`). This is right for IN and OR (`sound_compareIn`, `sound_conjunctionOr`).
For `prefix` and LIKE it is right if and only if the literal is not `NULL` and, where its fixed first part is made a
range, the last byte of that part can be incremented (`ScanExpression.sound_iff`).
-/

namespace WfOpt

open List Function

/-! ## Table filters of a scan -/

/-- The values of the columns of a table. -/
abbrev ScanRow (α : Type) := ℕ → Option α

/-- `TableFilterSet` -/
abbrev TableFilterSet (α : Type) := ℕ → Option (TableFilter α)

namespace TableFilterSet

variable {α : Type}

/-- `TableFilterSet::PushFilter` -/
def pushFilter (filters : TableFilterSet α) (columnIndex : ℕ) (filter : TableFilter α) : TableFilterSet α :=
  update filters columnIndex <| some <|
    match filters columnIndex with
    | none => filter
    | some (.conjunctionAndFilter childFilters) => .conjunctionAndFilter (childFilters ++ [filter])
    | some entry => .conjunctionAndFilter [entry, filter]

/-- The row passes all filters. -/
def Passes [LinearOrder α] (filters : TableFilterSet α) (row : ScanRow α) : Prop :=
  ∀ columnIndex filter, filters columnIndex = some filter → filter.passes (row columnIndex) = true

end TableFilterSet

/-! ## Expressions -/

/-- The types of constants: `TypeSupportsConstantFilter`, and the value as a `hugeint_t` for integral types. -/
structure ScanType where
  Value : Type
  [order : LinearOrder Value]
  supportsConstantFilter : Bool
  hugeint : Option {f : Value → ℤ // StrictMono f}

instance (t : ScanType) : LinearOrder t.Value := t.order

/-- `VARCHAR` -/
abbrev ScanType.varchar : ScanType := { Value := List UInt8, supportsConstantFilter := true, hugeint := none }

/-- An operand: a column of the scan, a constant, or something else. -/
inductive ScanOperand (α : Type)
  | boundColumnRef (columnIndex : ℕ)
  | boundConstant (value : Option α)
  | other (value : ScanRow α → Option α)

/-- The value of an operand, where `columnIds` gives the columns of the table. -/
def ScanOperand.evaluate {α : Type} (columnIds : ℕ → ℕ) (row : ScanRow α) : ScanOperand α → Option α
  | .boundColumnRef columnIndex => row (columnIds columnIndex)
  | .boundConstant value => value
  | .other value => value row

/-- A child of an OR. -/
inductive OrChild (α : Type)
  | comparison (comparisonType : ComparisonType) (left right : ScanOperand α)
  | other (value : ScanRow α → Option Bool)

/-- The functions on strings. -/
inductive ScanFunction
  | prefixFun
  | like

/-- The expressions that are pushed down. -/
inductive ScanExpression : ScanType → Type 1
  | function (function : ScanFunction) (string pattern : ScanOperand (List UInt8)) : ScanExpression .varchar
  | compareIn {t : ScanType} (operand first : ScanOperand t.Value) (rest : List (ScanOperand t.Value)) :
      ScanExpression t
  | conjunctionOr {t : ScanType} (children : List (OrChild t.Value)) : ScanExpression t

/-- A comparison of values that can be `NULL`. -/
def ComparisonType.evaluate {α : Type} [LinearOrder α] : ComparisonType → Option α → Option α → Option Bool
  | .distinctFrom, x, y => some (x ≠ y)
  | .notDistinctFrom, x, y => some (x = y)
  | comparisonType, some x, some y => some (comparisonType.holds x y)
  | _, _, _ => none

def OrChild.evaluate {α : Type} [LinearOrder α] (columnIds : ℕ → ℕ) (row : ScanRow α) : OrChild α → Option Bool
  | .comparison comparisonType left right =>
    comparisonType.evaluate (left.evaluate columnIds row) (right.evaluate columnIds row)
  | .other value => value row

def ScanFunction.holds (string pattern : List UInt8) : ScanFunction → Bool
  | .prefixFun => pattern <+: string
  | .like => templatedLikeOperator string pattern

/-- The truth values of the children of an OR are searched. -/
local instance lawfulBEqTruth : LawfulBEq (Option Bool) := inferInstance

/-- The value of an expression, `NULL` if it is unknown. -/
def ScanExpression.evaluate (columnIds : ℕ → ℕ) : {t : ScanType} → ScanExpression t → ScanRow t.Value → Option Bool
  | _, .function f string pattern, row =>
    match string.evaluate columnIds row, pattern.evaluate columnIds row with
    | some string, some pattern => some (f.holds string pattern)
    | _, _ => none
  | _, .compareIn operand first rest, row =>
    match operand.evaluate columnIds row with
    | none => none
    | some value =>
      let constants := (first :: rest).map fun constant => constant.evaluate columnIds row
      if some value ∈ constants then some true else if none ∈ constants then none else some false
  | _, .conjunctionOr children, row =>
    let values := children.map fun child => child.evaluate columnIds row
    if some true ∈ values then some true else if none ∈ values then none else some false

/-! ## Pushing down -/

/-- `FilterPushdownResult` -/
inductive FilterPushdownResult
  | noPushdown
  | pushedDownPartially
  | pushedDownFully
  deriving DecidableEq

/-- What is thrown. -/
inductive PushdownException
  | internalException (message : String)
  | invalidUnicodeError (context : String)
  deriving DecidableEq

/-- `Value::Value(string)` -/
def valueOfString (val : List UInt8) : Except PushdownException (List UInt8) :=
  if stringIsValid val then .ok val else .error (.invalidUnicodeError "value construction")

/-- The string with its last byte incremented. -/
def incrementLast (s : List UInt8) : List UInt8 := s.dropLast ++ [s.getLastD 0 + 1]

/-- The bounds of the strings that begin with a given one are pushed. -/
def pushRange (filters : TableFilterSet (List UInt8)) (columnIndex : ℕ) (s : List UInt8) :
    Except PushdownException (TableFilterSet (List UInt8)) := do
  let lowerBound ← valueOfString s
  let upperBound ← valueOfString (incrementLast s)
  return (filters.pushFilter columnIndex (.constantFilter .greaterThanOrEqualTo lowerBound)).pushFilter columnIndex
    (.constantFilter .lessThan upperBound)

/-- `FilterCombiner::TryPushdownPrefixFilter` -/
def tryPushdownPrefixFilter (columnIds : ℕ → ℕ) (tableFilters : TableFilterSet (List UInt8)) :
    (string pattern : ScanOperand (List UInt8)) →
      Except PushdownException (FilterPushdownResult × TableFilterSet (List UInt8))
  | .boundColumnRef _, .boundConstant none =>
    .error (.internalException "Calling StringValue::Get on a NULL value")
  | .boundColumnRef columnIndex, .boundConstant (some prefixString) =>
    if prefixString = [] then .ok (.noPushdown, tableFilters)
    else do
      let tableFilters ← pushRange tableFilters (columnIds columnIndex) prefixString
      return (.pushedDownFully, tableFilters)
  | _, _ => .ok (.noPushdown, tableFilters)

open LikeOptimizationRule (isOrdinary)

/-- `FilterCombiner::TryPushdownLikeFilter` -/
def tryPushdownLikeFilter (columnIds : ℕ → ℕ) (tableFilters : TableFilterSet (List UInt8)) :
    (string pattern : ScanOperand (List UInt8)) →
      Except PushdownException (FilterPushdownResult × TableFilterSet (List UInt8))
  | .boundColumnRef columnIndex, .boundConstant none =>
    .ok (.pushedDownFully, tableFilters.pushFilter (columnIds columnIndex) .isNotNullFilter)
  | .boundColumnRef columnIndex, .boundConstant (some likeString) =>
    if likeString.headD 0 = percentage ∨ likeString.headD 0 = underscore then .ok (.noPushdown, tableFilters)
    else
      let fixed := likeString.takeWhile isOrdinary
      let equality := likeString.all isOrdinary
      if equality then do
        let constant ← valueOfString fixed
        return (.pushedDownFully, tableFilters.pushFilter (columnIds columnIndex) (.constantFilter .equal constant))
      else do
        let tableFilters ← pushRange tableFilters (columnIds columnIndex) fixed
        return (.pushedDownPartially, tableFilters)
  | _, _ => .ok (.noPushdown, tableFilters)

/-- The children of an IN, if all of them are constants and not `NULL`. -/
def constantChildren {α : Type} : List (ScanOperand α) → Option (List α)
  | [] => some []
  | .boundConstant (some value) :: children => (constantChildren children).map (value :: ·)
  | _ :: _ => none

/-- `TrySubtractOperator`, of `hugeint_t`s -/
def trySubtract (left right : ℤ) : Option ℤ :=
  if -2 ^ 127 ≤ left - right ∧ left - right < 2 ^ 127 then some (left - right) else none

/-- The loop of `FilterCombiner::IsDenseRange` -/
def isDenseFrom {α : Type} (hugeint : α → ℤ) (prevValue : α) : List α → Bool
  | [] => true
  | currentValue :: inList =>
    match trySubtract (hugeint currentValue) (hugeint prevValue) with
    | none => false
    | some diff => if diff ≠ 1 then false else isDenseFrom hugeint currentValue inList

/-- `FilterCombiner::IsDenseRange` of a list that is not empty, with the sorted list -/
def isDenseRange (t : ScanType) (inList : List t.Value) : List t.Value × Bool := match t.hugeint with
  | none => (inList, false)
  | some hugeint =>
    match inList.mergeSort (· ≤ ·) with
    | [] => ([], true)
    | front :: inList => (front :: inList, isDenseFrom hugeint front inList)

/-- `FilterCombiner::TryPushdownInFilter` -/
def tryPushdownInFilter (t : ScanType) (columnIds : ℕ → ℕ) (tableFilters : TableFilterSet t.Value)
    (operand first : ScanOperand t.Value) (rest : List (ScanOperand t.Value)) :
    FilterPushdownResult × TableFilterSet t.Value :=
  match operand with
  | .boundColumnRef columnIndex =>
    match constantChildren (first :: rest) with
    | none => (.noPushdown, tableFilters)
    | some [] => (.noPushdown, tableFilters)
    | some (value :: values) =>
      if values = [] ∧ t.supportsConstantFilter then
        (.pushedDownFully, tableFilters.pushFilter (columnIds columnIndex) (.constantFilter .equal value))
      else
        match isDenseRange t (value :: values) with
        | (front :: inList, true) =>
          (.pushedDownFully,
            (tableFilters.pushFilter (columnIds columnIndex) (.constantFilter .greaterThanOrEqualTo front)).pushFilter
              (columnIds columnIndex) (.constantFilter .lessThanOrEqualTo (inList.getLastD front)))
        | (inList, _) =>
          (.pushedDownPartially,
            tableFilters.pushFilter (columnIds columnIndex) (.optionalFilter (.inFilter inList)))
  | _ => (.noPushdown, tableFilters)

/-- `FlipComparisonExpression` -/
def ComparisonType.flip : ComparisonType → ComparisonType
  | .lessThan => .greaterThan
  | .greaterThan => .lessThan
  | .lessThanOrEqualTo => .greaterThanOrEqualTo
  | .greaterThanOrEqualTo => .lessThanOrEqualTo
  | comparisonType => comparisonType

/-- The column, the comparison and the constant of a child of an OR. -/
def OrChild.columnComparison {α : Type} : OrChild α → Option (ℕ × ComparisonType × Option α)
  | .comparison comparisonType (.boundColumnRef columnIndex) (.boundConstant value) =>
    some (columnIndex, comparisonType, value)
  | .comparison comparisonType (.boundConstant value) (.boundColumnRef columnIndex) =>
    some (columnIndex, comparisonType.flip, value)
  | _ => none

/-- The filters a comparison adds to the OR. -/
def comparisonFilters {α : Type} : ComparisonType → Option α → List (TableFilter α)
  | comparisonType, some value => [.constantFilter comparisonType value]
  | .distinctFrom, none => [.isNotNullFilter]
  | .notDistinctFrom, none => [.isNullFilter]
  | _, none => []

/-- The loop of `FilterCombiner::TryPushdownOrClause`, behind the first child -/
def orClauseLoop {α : Type} (columnIds : ℕ → ℕ) (columnId : ℕ) (childFilters : List (TableFilter α)) :
    List (OrChild α) → Option (List (TableFilter α))
  | [] => some childFilters
  | child :: children =>
    match child.columnComparison with
    | none => none
    | some (columnIndex, comparisonType, value) =>
      if columnId ≠ columnIds columnIndex then none
      else orClauseLoop columnIds columnId (childFilters ++ comparisonFilters comparisonType value) children

/-- `FilterCombiner::TryPushdownOrClause` -/
def tryPushdownOrClause {α : Type} (columnIds : ℕ → ℕ) (tableFilters : TableFilterSet α)
    (children : List (OrChild α)) : FilterPushdownResult × TableFilterSet α :=
  match children with
  | [] => (.noPushdown, tableFilters)
  | child :: children =>
    match child.columnComparison with
    | none => (.noPushdown, tableFilters)
    | some (columnIndex, comparisonType, value) =>
      match orClauseLoop columnIds (columnIds columnIndex) (comparisonFilters comparisonType value) children with
      | none => (.noPushdown, tableFilters)
      | some childFilters =>
        (.pushedDownPartially,
          tableFilters.pushFilter (columnIds columnIndex) (.optionalFilter (.conjunctionOrFilter childFilters)))

/-- `FilterCombiner::TryPushdownExpression` -/
def tryPushdownExpression (columnIds : ℕ → ℕ) : {t : ScanType} → TableFilterSet t.Value → ScanExpression t →
    Except PushdownException (FilterPushdownResult × TableFilterSet t.Value)
  | _, tableFilters, .function .prefixFun string pattern =>
    tryPushdownPrefixFilter columnIds tableFilters string pattern
  | _, tableFilters, .function .like string pattern => tryPushdownLikeFilter columnIds tableFilters string pattern
  | t, tableFilters, .compareIn operand first rest =>
    .ok (tryPushdownInFilter t columnIds tableFilters operand first rest)
  | _, tableFilters, .conjunctionOr children => .ok (tryPushdownOrClause columnIds tableFilters children)

/-! ## Soundness -/

/-- The literal is a text or `NULL`. -/
def ScanExpression.LiteralValid : {t : ScanType} → ScanExpression t → Prop
  | _, .function _ _ (.boundConstant (some literal)) => ∃ text, utf8Encode text = literal
  | _, _ => True

/-- What makes the expression true passes the pushed filters, and if they say it all, then also conversely. -/
structure ScanExpression.PushedRight (columnIds : ℕ → ℕ) {t : ScanType} (expr : ScanExpression t)
    (tableFilters : TableFilterSet t.Value) (pushed : FilterPushdownResult × TableFilterSet t.Value) : Prop where
  noPushdown : pushed.1 = .noPushdown → pushed.2 = tableFilters
  passes : ∀ row, tableFilters.Passes row → expr.evaluate columnIds row = some true → pushed.2.Passes row
  fully : pushed.1 = .pushedDownFully → ∀ row, pushed.2.Passes row → expr.evaluate columnIds row = some true

/-- The expression is pushed down without an exception, and rightly. -/
def ScanExpression.Sound (columnIds : ℕ → ℕ) {t : ScanType} (expr : ScanExpression t) : Prop :=
  ∀ tableFilters, ∃ pushed, tryPushdownExpression columnIds tableFilters expr = .ok pushed ∧
    expr.PushedRight columnIds tableFilters pushed

/-- The last byte can be incremented. -/
def CanIncrement (s : List UInt8) : Prop := s.getLastD 0 ≠ 0x7F ∧ s.getLastD 0 ≠ 0xBF

/-- The literal of `prefix` or LIKE is not `NULL`, and what it is made a range of can be incremented. -/
def ScanExpression.LiteralSuits : {t : ScanType} → ScanExpression t → Prop
  | _, .function _ (.boundColumnRef _) (.boundConstant none) => False
  | _, .function .prefixFun (.boundColumnRef _) (.boundConstant (some literal)) => CanIncrement literal
  | _, .function .like (.boundColumnRef _) (.boundConstant (some literal)) =>
    literal.all isOrdinary = true ∨ CanIncrement (literal.takeWhile isOrdinary)
  | _, _ => True

section PushedRight

variable {t : ScanType} {columnIds : ℕ → ℕ} {expr : ScanExpression t} {tableFilters tableFilters' : TableFilterSet t.Value}

theorem ScanExpression.PushedRight.of_noPushdown : expr.PushedRight columnIds tableFilters (.noPushdown, tableFilters) :=
  ⟨fun _ => rfl, fun _ hrow _ => hrow, fun h => nomatch h⟩

theorem ScanExpression.PushedRight.of_fully
    (h : ∀ row, tableFilters'.Passes row ↔ tableFilters.Passes row ∧ expr.evaluate columnIds row = some true) :
    expr.PushedRight columnIds tableFilters (.pushedDownFully, tableFilters') :=
  ⟨(fun h => nomatch h), fun row hrow hexpr => (h row).2 ⟨hrow, hexpr⟩, fun _ row hrow => ((h row).1 hrow).2⟩

theorem ScanExpression.PushedRight.of_partially
    (h : ∀ row, tableFilters.Passes row → expr.evaluate columnIds row = some true → tableFilters'.Passes row) :
    expr.PushedRight columnIds tableFilters (.pushedDownPartially, tableFilters') :=
  ⟨(fun h => nomatch h), h, fun h => nomatch h⟩

end PushedRight

section Passes

variable {α : Type} [LinearOrder α] {tableFilters : TableFilterSet α} {row : ScanRow α} {columnIndex : ℕ}

theorem passesAll_append (filters : List (TableFilter α)) (filter : TableFilter α) (value : Option α) :
    TableFilter.passesAll (filters ++ [filter]) value = (TableFilter.passesAll filters value && filter.passes value) := by
  induction filters with
  | nil => simp [TableFilter.passesAll]
  | cons f filters ih => rw [cons_append, TableFilter.passesAll, TableFilter.passesAll, ih, Bool.and_assoc]

theorem TableFilterSet.passes_pushFilter (tableFilters : TableFilterSet α) (columnIndex : ℕ) (filter : TableFilter α) :
    (tableFilters.pushFilter columnIndex filter).Passes row ↔
      tableFilters.Passes row ∧ filter.passes (row columnIndex) = true := by
  have hcomb : ∀ entry, (tableFilters.pushFilter columnIndex filter) columnIndex = some entry →
      (entry.passes (row columnIndex) = true ↔
        (∀ f, tableFilters columnIndex = some f → f.passes (row columnIndex) = true) ∧
          filter.passes (row columnIndex) = true) := by
    intro entry hent
    rw [pushFilter, update_self, Option.some.injEq] at hent
    rw [← hent]
    cases h : tableFilters columnIndex with
    | none => simp
    | some f =>
      cases f <;> simp [TableFilter.passes, TableFilter.passesAll, passesAll_append]
  constructor
  · intro h
    have hent : (tableFilters.pushFilter columnIndex filter) columnIndex = some _ := update_self ..
    obtain ⟨hold, hnew⟩ := (hcomb _ hent).1 (h _ _ hent)
    refine ⟨fun c f hf => ?_, hnew⟩
    by_cases hc : c = columnIndex
    · exact hc ▸ hold f (hc ▸ hf)
    · exact h c f ((update_of_ne hc ..).trans hf)
  · rintro ⟨hold, hnew⟩ c f hf
    by_cases hc : c = columnIndex
    · subst hc
      exact (hcomb f hf).2 ⟨fun f hf => hold c f hf, hnew⟩
    · exact hold c f ((update_of_ne hc ..).symm.trans hf)

theorem passes_constantFilter (comparisonType : ComparisonType) (h : comparisonType ≠ .distinctFrom) (constant : α)
    (value : Option α) :
    (TableFilter.constantFilter comparisonType constant).passes value = true ↔
      ∃ v, value = some v ∧ comparisonType.holds v constant = true := by
  cases value with
  | none => simp [TableFilter.passes, h]
  | some v => simp [TableFilter.passes]

end Passes

/-! ## Strings -/

section Strings

variable {columnIds : ℕ → ℕ} {tableFilters : TableFilterSet (List UInt8)} {row : ScanRow (List UInt8)} {columnIndex : ℕ}
  {string : ScanOperand (List UInt8)}

/-- The first part of a text, up to a special character, is a text. -/
theorem exists_takeWhile_utf8Encode (text : List Char) :
    ∃ first, utf8Encode first = (utf8Encode text).takeWhile isOrdinary := by
  induction text with
  | nil => exact ⟨[], rfl⟩
  | cons c text ih =>
    obtain ⟨first, hfst⟩ := ih
    by_cases hp : c = '%'
    · exact ⟨[], by rw [hp, utf8Encode_cons, utf8EncodeChar_percentage]; rfl⟩
    · by_cases hu : c = '_'
      · exact ⟨[], by rw [hu, utf8Encode_cons, utf8EncodeChar_underscore]; rfl⟩
      · refine ⟨c :: first, ?_⟩
        rw [utf8Encode_cons, utf8Encode_cons, hfst, takeWhile_append_of_pos fun b hb =>
          LikeOptimizationRule.isOrdinary_iff.2 (ne_special_of_mem hp hu b hb)]

theorem valueOfString_utf8Encode (text : List Char) : valueOfString (utf8Encode text) = .ok (utf8Encode text) :=
  if_pos (stringIsValid_utf8Encode text)

theorem lt_add_one_of_ne {b : UInt8} (h : b ≠ 255) : b < b + 1 ∧ ∀ x, b < x → ¬x < b + 1 := by
  have hne : b.toNat ≠ 255 := fun heq => h (UInt8.toNat_inj.1 heq)
  have hlt := b.toNat_lt
  have hsucc : (b + 1).toNat = b.toNat + 1 := by
    exact Nat.mod_eq_of_lt (by change b.toNat + 1 < _; omega)
  refine ⟨UInt8.lt_iff_toNat_lt.2 (by omega), fun x hx hx' => ?_⟩
  rw [UInt8.lt_iff_toNat_lt] at hx hx'
  omega

section

variable {s : List UInt8} {text : List Char} (hne : s ≠ []) (htext : utf8Encode text = s)

include hne htext

/-- A range is pushed if the last byte can be incremented. What passes it begins with the string. -/
theorem pushRange_ok
    (h : CanIncrement s) :
    ∃ tableFilters', pushRange tableFilters columnIndex s = .ok tableFilters' ∧
      ∀ row, tableFilters'.Passes row ↔ tableFilters.Passes row ∧ ∃ v, row columnIndex = some v ∧ s <+: v := by
  obtain ⟨l, b, rfl⟩ := (eq_nil_or_concat' s).resolve_left hne
  have hlst : (l ++ [b]).getLastD 0 = b := by simp
  have hincrement : incrementLast (l ++ [b]) = l ++ [b + 1] := by rw [incrementLast, hlst]; simp
  rw [CanIncrement, hlst] at h
  refine ⟨(tableFilters.pushFilter columnIndex (.constantFilter .greaterThanOrEqualTo (l ++ [b]))).pushFilter
    columnIndex (.constantFilter .lessThan (l ++ [b + 1])), ?_, fun row => ?_⟩
  · rw [pushRange, ← htext, valueOfString_utf8Encode, htext, hincrement, valueOfString,
      if_pos ((stringIsValid_increment htext).2 h)]
    rfl
  · rw [TableFilterSet.passes_pushFilter, TableFilterSet.passes_pushFilter, and_assoc,
      passes_constantFilter .greaterThanOrEqualTo (by decide), passes_constantFilter .lessThan (by decide)]
    have hb : b ∈ utf8Encode text := htext ▸ mem_append_right l (mem_singleton_self b)
    obtain ⟨c, -, hc⟩ := mem_flatMap.1 hb
    obtain ⟨hlt, hnx⟩ := lt_add_one_of_ne (utf8EncodeChar_ne c b hc)
    refine and_congr_right' ⟨?_, ?_⟩
    · rintro ⟨⟨v, hv, hge⟩, v', hv', hlt'⟩
      cases hv.symm.trans hv'
      exact ⟨v, hv, (prefix_iff_le_and_lt hlt hnx l v).2
        ⟨ComparisonType.holds_greaterThanOrEqualTo.1 hge, ComparisonType.holds_lessThan.1 hlt'⟩⟩
    · rintro ⟨v, hv, hbeg⟩
      obtain ⟨hge, hlt'⟩ := (prefix_iff_le_and_lt hlt hnx l v).1 hbeg
      exact ⟨⟨v, hv, ComparisonType.holds_greaterThanOrEqualTo.2 hge⟩, v, hv, ComparisonType.holds_lessThan.2 hlt'⟩

theorem pushRange_error
    (h : ¬CanIncrement s) :
    pushRange tableFilters columnIndex s = .error (.invalidUnicodeError "value construction") := by
  obtain ⟨l, b, rfl⟩ := (eq_nil_or_concat' s).resolve_left hne
  have hlst : (l ++ [b]).getLastD 0 = b := by simp
  have hincrement : incrementLast (l ++ [b]) = l ++ [b + 1] := by rw [incrementLast, hlst]; simp
  rw [CanIncrement, hlst] at h
  rw [pushRange, ← htext, valueOfString_utf8Encode, htext, hincrement, valueOfString,
    if_neg (mt (stringIsValid_increment htext).1 h)]
  rfl

end

/-- LIKE keeps strings that begin with the first part of the pattern, and only the pattern itself if it has no special
    characters. -/
theorem takeWhile_prefix_of_like {v pattern : List UInt8} (h : templatedLikeOperator v pattern = true) :
    pattern.takeWhile isOrdinary <+: v := by
  have hordinary : ∀ b ∈ pattern.takeWhile isOrdinary, b ≠ percentage ∧ b ≠ underscore := fun b hb =>
    LikeOptimizationRule.isOrdinary_iff.1 (mem_takeWhile_imp hb)
  have hbs := byteWildcards_append hordinary (pattern.dropWhile isOrdinary)
  rw [takeWhile_append_dropWhile] at hbs
  rw [templatedLikeOperator_iff, hbs, Wildcard.matches_segment_append] at h
  obtain ⟨t, rfl, -⟩ := h
  exact prefix_append _ t

theorem like_iff_eq {v pattern : List UInt8} (hall : pattern.all isOrdinary = true) :
    templatedLikeOperator v pattern = true ↔ v = pattern := by
  have hbs := byteWildcards_append
    (fun b hb => LikeOptimizationRule.isOrdinary_iff.1 (all_eq_true.1 hall b hb)) []
  rw [append_nil, byteWildcards_nil, append_nil] at hbs
  rw [templatedLikeOperator_iff, hbs, Wildcard.matches_segment]

theorem evaluate_function_eq_true {f : ScanFunction} {literal : List UInt8} :
    (ScanExpression.function f (.boundColumnRef columnIndex) (.boundConstant (some literal))).evaluate columnIds row =
        some true ↔ ∃ v, row (columnIds columnIndex) = some v ∧ f.holds v literal = true := by
  rw [ScanExpression.evaluate, ScanOperand.evaluate, ScanOperand.evaluate]
  cases row (columnIds columnIndex) with
  | none => simp
  | some v => simp

theorem tryPushdownExpression_prefixFun (literal : List UInt8) : tryPushdownExpression columnIds tableFilters
        (.function .prefixFun (.boundColumnRef columnIndex) (.boundConstant (some literal))) =
      if literal = [] then .ok (.noPushdown, tableFilters)
      else do
        let tableFilters ← pushRange tableFilters (columnIds columnIndex) literal
        return (.pushedDownFully, tableFilters) :=
  rfl

theorem tryPushdownExpression_like (literal : List UInt8) : tryPushdownExpression columnIds tableFilters
        (.function .like (.boundColumnRef columnIndex) (.boundConstant (some literal))) =
      if literal.headD 0 = percentage ∨ literal.headD 0 = underscore then .ok (.noPushdown, tableFilters)
      else if literal.all isOrdinary then do
        let constant ← valueOfString (literal.takeWhile isOrdinary)
        return (.pushedDownFully, tableFilters.pushFilter (columnIds columnIndex) (.constantFilter .equal constant))
      else do
        let tableFilters ← pushRange tableFilters (columnIds columnIndex) (literal.takeWhile isOrdinary)
        return (.pushedDownPartially, tableFilters) :=
  rfl

variable {literal : List UInt8} (hvld : ∃ text, utf8Encode text = literal)

include hvld

theorem sound_prefixFun
    (h : CanIncrement literal) :
    (ScanExpression.function .prefixFun (.boundColumnRef columnIndex) (.boundConstant (some literal))).Sound
      columnIds := by
  intro tableFilters
  rw [tryPushdownExpression_prefixFun]
  by_cases hemp : literal = []
  · rw [if_pos hemp]
    exact ⟨_, rfl, .of_noPushdown⟩
  · obtain ⟨text, htext⟩ := hvld
    obtain ⟨tableFilters', hok, hpass⟩ := pushRange_ok hemp htext h
    rw [if_neg hemp, hok]
    refine ⟨_, rfl, .of_fully fun row => ?_⟩
    rw [hpass, evaluate_function_eq_true]
    exact and_congr_right' <| exists_congr fun v => and_congr_right' decide_eq_true_iff.symm

theorem sound_like
    (h : literal.all isOrdinary = true ∨ CanIncrement (literal.takeWhile isOrdinary)) :
    (ScanExpression.function .like (.boundColumnRef columnIndex) (.boundConstant (some literal))).Sound
      columnIds := by
  intro tableFilters
  rw [tryPushdownExpression_like]
  obtain ⟨text, htext⟩ := hvld
  by_cases hspec : literal.headD 0 = percentage ∨ literal.headD 0 = underscore
  · rw [if_pos hspec]
    exact ⟨_, rfl, .of_noPushdown⟩
  rw [if_neg hspec]
  by_cases hall : literal.all isOrdinary = true
  · have hfixed : literal.takeWhile isOrdinary = literal := takeWhile_eq_self_iff.2 (all_eq_true.1 hall)
    rw [if_pos hall, hfixed, ← htext, valueOfString_utf8Encode, htext]
    refine ⟨_, rfl, .of_fully fun row => ?_⟩
    rw [TableFilterSet.passes_pushFilter, passes_constantFilter .equal (by decide), evaluate_function_eq_true]
    refine and_congr_right' <| exists_congr fun v => and_congr_right' ?_
    exact ComparisonType.holds_equal.trans (like_iff_eq hall).symm
  · rw [if_neg hall]
    obtain ⟨first, hfst⟩ := exists_takeWhile_utf8Encode text
    rw [htext] at hfst
    have hne : literal.takeWhile isOrdinary ≠ [] := by
      cases literal with
      | nil => exact absurd rfl hall
      | cons b literal =>
        have hb : isOrdinary b = true := LikeOptimizationRule.isOrdinary_iff.2 (not_or.1 hspec)
        rw [takeWhile_cons_of_pos hb]
        exact cons_ne_nil _ _
    obtain ⟨tableFilters', hok, hpass⟩ := pushRange_ok hne hfst (h.resolve_left hall)
    rw [hok]
    refine ⟨_, rfl, .of_partially fun row hrow hexpr => (hpass row).2 ⟨hrow, ?_⟩⟩
    obtain ⟨v, hv, hhld⟩ := evaluate_function_eq_true.1 hexpr
    exact ⟨v, hv, takeWhile_prefix_of_like hhld⟩

end Strings

/-! ## IN -/

section CompareIn

variable {t : ScanType} {columnIds : ℕ → ℕ}

theorem map_evaluate_of_constantChildren {row : ScanRow t.Value} {children : List (ScanOperand t.Value)}
    {values : List t.Value} (h : constantChildren children = some values) :
    (children.map fun child => child.evaluate columnIds row) = values.map some := by
  induction children generalizing values with
  | nil =>
    cases h
    rfl
  | cons child children ih =>
    cases child with
    | boundConstant value =>
      cases value with
      | some value =>
        obtain ⟨values, hvals, rfl⟩ := Option.map_eq_some_iff.1 h
        rw [map_cons, ih hvals]
        rfl
      | none => exact nomatch h
    | boundColumnRef columnIndex => exact nomatch h
    | other value => exact nomatch h

theorem isDenseFrom_iff {α : Type} [LinearOrder α] {hugeint : α → ℤ} (hmono : StrictMono hugeint) {prevValue : α}
    {inList : List α} (h : isDenseFrom hugeint prevValue inList = true) (v : α) :
    prevValue ≤ v ∧ v ≤ inList.getLastD prevValue ↔ v ∈ prevValue :: inList := by
  induction inList generalizing prevValue v with
  | nil =>
    rw [getLastD_nil, mem_singleton]
    exact ⟨fun h => le_antisymm h.2 h.1, fun h => ⟨h.ge, h.le⟩⟩
  | cons currentValue inList ih =>
    rw [isDenseFrom, trySubtract] at h
    split_ifs at h with hrng
    · dsimp only at h
      split_ifs at h with hdiff
      have hiff := fun v => ih h v
      have hlt : prevValue < currentValue := hmono.lt_iff_lt.1 (by omega)
      rw [getLastD_cons, mem_cons, ← hiff v]
      constructor
      · rintro ⟨hle, hlst⟩
        rcases hle.eq_or_lt with heq | hlt'
        · exact .inl heq.symm
        · -- There is no integer between the two values.
          have hsucc : hugeint prevValue < hugeint v := hmono hlt'
          exact .inr ⟨hmono.le_iff_le.1 (by omega), hlst⟩
      · rintro (rfl | ⟨hle, hlst⟩)
        · exact ⟨le_rfl, hlt.le.trans ((hiff currentValue).2 mem_cons_self).2⟩
        · exact ⟨hlt.le.trans hle, hlst⟩

theorem isDenseRange_perm (inList : List t.Value) : (isDenseRange t inList).1.Perm inList := by
  rw [isDenseRange]
  cases t.hugeint with
  | none => exact .refl _
  | some hugeint =>
    have hperm := mergeSort_perm inList (· ≤ ·)
    dsimp only
    split
    next hsort => rwa [hsort] at hperm
    next hsort => rwa [hsort] at hperm

theorem isDenseRange_iff {inList sorted : List t.Value} {front : t.Value}
    (h : isDenseRange t inList = (front :: sorted, true)) (v : t.Value) :
    front ≤ v ∧ v ≤ sorted.getLastD front ↔ v ∈ inList := by
  have hperm := isDenseRange_perm inList
  rw [h] at hperm
  rw [← hperm.mem_iff]
  rw [isDenseRange] at h
  cases hhugeint : t.hugeint with
  | none =>
    rw [hhugeint] at h
    exact nomatch (Prod.mk.inj h).2
  | some hugeint =>
    rw [hhugeint] at h
    dsimp only at h
    split at h
    next => exact nomatch (Prod.mk.inj h).1
    next =>
      obtain ⟨hlist, hdense⟩ := Prod.mk.inj h
      obtain ⟨rfl, rfl⟩ := cons.inj hlist
      exact isDenseFrom_iff hugeint.2 hdense v

theorem evaluate_compareIn_eq_true {row : ScanRow t.Value} {columnIndex : ℕ} {first : ScanOperand t.Value}
    {rest : List (ScanOperand t.Value)} {values : List t.Value}
    (h : constantChildren (first :: rest) = some values) :
    (ScanExpression.compareIn (.boundColumnRef columnIndex) first rest).evaluate columnIds row = some true ↔
      ∃ v, row (columnIds columnIndex) = some v ∧ v ∈ values := by
  rw [ScanExpression.evaluate, map_evaluate_of_constantChildren h, ScanOperand.evaluate]
  cases row (columnIds columnIndex) with
  | none => simp
  | some v =>
    by_cases hv : v ∈ values
    · simp [hv]
    · simp [hv]

theorem passes_inFilter_iff {values : List t.Value} (value : Option t.Value) :
    (TableFilter.inFilter values).passes value = true ↔ ∃ v, value = some v ∧ v ∈ values := by
  cases value with
  | none => simp [TableFilter.passes]
  | some v => simp [TableFilter.passes, ComparisonType.holds]

theorem sound_compareIn (operand first : ScanOperand t.Value) (rest : List (ScanOperand t.Value)) :
    (ScanExpression.compareIn operand first rest).Sound columnIds := by
  intro tableFilters
  refine ⟨_, rfl, ?_⟩
  cases operand with
  | boundConstant value | other value => exact .of_noPushdown
  | boundColumnRef columnIndex =>
    rw [tryPushdownInFilter]
    cases hchs : constantChildren (first :: rest) with
    | none => exact .of_noPushdown
    | some values =>
      cases values with
      | nil => exact .of_noPushdown
      | cons value values =>
        dsimp only
        split_ifs with hsing
        · refine .of_fully fun row => ?_
          rw [TableFilterSet.passes_pushFilter, passes_constantFilter .equal (by decide),
            evaluate_compareIn_eq_true hchs, hsing.1]
          refine and_congr_right' <| exists_congr fun v => and_congr_right' ?_
          rw [ComparisonType.holds_equal, mem_singleton]
        · obtain ⟨inList, hinList⟩ : ∃ inList, inList = isDenseRange t (value :: values) := ⟨_, rfl⟩
          rw [← hinList]
          have hperm := isDenseRange_perm (value :: values)
          rw [← hinList] at hperm
          have hpartially : ScanExpression.PushedRight columnIds _ tableFilters (.pushedDownPartially, _) :=
            .of_partially fun row hrow hexpr => (TableFilterSet.passes_pushFilter tableFilters (columnIds columnIndex)
              (.optionalFilter (.inFilter inList.1))).2 ⟨hrow, by
                obtain ⟨v, hv, hmem⟩ := (evaluate_compareIn_eq_true hchs).1 hexpr
                rw [TableFilter.passes, passes_inFilter_iff]
                exact ⟨v, hv, hperm.mem_iff.2 hmem⟩⟩
          obtain ⟨sorted, dense⟩ := inList
          cases sorted with
          | nil => exact hpartially
          | cons front sorted =>
            cases dense with
            | false => exact hpartially
            | true =>
              refine .of_fully fun row => ?_
              rw [TableFilterSet.passes_pushFilter, TableFilterSet.passes_pushFilter, and_assoc,
                passes_constantFilter .greaterThanOrEqualTo (by decide),
                passes_constantFilter .lessThanOrEqualTo (by decide), evaluate_compareIn_eq_true hchs]
              have hiff := fun v => isDenseRange_iff hinList.symm v
              refine and_congr_right' ⟨?_, ?_⟩
              · rintro ⟨⟨v, hv, hge⟩, v', hv', hle⟩
                cases hv.symm.trans hv'
                exact ⟨v, hv, (hiff v).1
                  ⟨ComparisonType.holds_greaterThanOrEqualTo.1 hge, ComparisonType.holds_lessThanOrEqualTo.1 hle⟩⟩
              · rintro ⟨v, hv, hmem⟩
                obtain ⟨hge, hle⟩ := (hiff v).2 hmem
                exact ⟨⟨v, hv, ComparisonType.holds_greaterThanOrEqualTo.2 hge⟩, v, hv,
                  ComparisonType.holds_lessThanOrEqualTo.2 hle⟩

end CompareIn

/-! ## OR -/

section ConjunctionOr

variable {α : Type} [LinearOrder α] {columnIds : ℕ → ℕ} {row : ScanRow α}

omit [LinearOrder α] in
theorem passesAny_append [LinearOrder α] (filters filters' : List (TableFilter α)) (value : Option α) :
    TableFilter.passesAny (filters ++ filters') value =
      (TableFilter.passesAny filters value || TableFilter.passesAny filters' value) := by
  induction filters with
  | nil => simp [TableFilter.passesAny]
  | cons f filters ih => rw [cons_append, TableFilter.passesAny, TableFilter.passesAny, ih, Bool.or_assoc]

theorem ComparisonType.evaluate_flip (comparisonType : ComparisonType) (x y : Option α) :
    comparisonType.flip.evaluate x y = comparisonType.evaluate y x := by
  cases comparisonType <;> cases x <;> cases y <;> simp [flip, evaluate, holds, eq_comm]

theorem OrChild.evaluate_of_columnComparison {child : OrChild α} {columnIndex : ℕ} {comparisonType : ComparisonType}
    {value : Option α} (h : child.columnComparison = some (columnIndex, comparisonType, value)) :
    child.evaluate columnIds row = comparisonType.evaluate (row (columnIds columnIndex)) value := by
  cases child with
  | other value => exact nomatch h
  | comparison type left right =>
    cases left with
    | boundColumnRef index =>
      cases right with
      | boundConstant constant =>
        cases h
        rfl
      | boundColumnRef index' => exact nomatch h
      | other value => exact nomatch h
    | boundConstant constant =>
      cases right with
      | boundColumnRef index =>
        cases h
        exact (type.evaluate_flip _ _).symm
      | boundConstant constant' => exact nomatch h
      | other value => exact nomatch h
    | other value => exact nomatch h

theorem passesAny_comparisonFilters_iff (comparisonType : ComparisonType) (x value : Option α) :
    TableFilter.passesAny (comparisonFilters comparisonType value) x = true ↔
      comparisonType.evaluate x value = some true := by
  cases value with
  | some v =>
    cases x with
    | none => cases comparisonType <;> simp [comparisonFilters, TableFilter.passesAny, TableFilter.passes, ComparisonType.evaluate]
    | some x => cases comparisonType <;> simp [comparisonFilters, TableFilter.passesAny, TableFilter.passes, ComparisonType.evaluate, ComparisonType.holds]
  | none =>
    cases x with
    | none
    | some x => cases comparisonType <;> simp [comparisonFilters, TableFilter.passesAny, TableFilter.passes, ComparisonType.evaluate]

/-- The filters that are collected are passed if a comparison is true. -/
theorem passesAny_orClauseLoop_iff {columnId : ℕ} {childFilters childFilters' : List (TableFilter α)}
    {children : List (OrChild α)} (h : orClauseLoop columnIds columnId childFilters children = some childFilters') :
    TableFilter.passesAny childFilters' (row columnId) = true ↔
      TableFilter.passesAny childFilters (row columnId) = true ∨
        ∃ child ∈ children, child.evaluate columnIds row = some true := by
  induction children generalizing childFilters with
  | nil =>
    cases h
    simp
  | cons child children ih =>
    rw [orClauseLoop] at h
    cases hch : child.columnComparison with
    | none =>
      rw [hch] at h
      exact nomatch h
    | some comparison =>
      rw [hch] at h
      dsimp only at h
      split_ifs at h with hcolumn
      rw [not_not] at hcolumn
      rw [ih h, passesAny_append, Bool.or_eq_true, passesAny_comparisonFilters_iff, hcolumn,
        ← OrChild.evaluate_of_columnComparison hch, or_assoc, exists_mem_cons_iff]

end ConjunctionOr

section Expressions

variable {t : ScanType} {columnIds : ℕ → ℕ}

theorem evaluate_conjunctionOr_eq_true {row : ScanRow t.Value} {children : List (OrChild t.Value)} :
    (ScanExpression.conjunctionOr children).evaluate columnIds row = some true ↔
      ∃ child ∈ children, child.evaluate columnIds row = some true := by
  rw [ScanExpression.evaluate, ← mem_map]
  split_ifs with h <;> simp [h]

theorem sound_conjunctionOr (children : List (OrChild t.Value)) :
    (ScanExpression.conjunctionOr children).Sound columnIds := by
  intro tableFilters
  refine ⟨_, rfl, ?_⟩
  cases children with
  | nil => exact .of_noPushdown
  | cons child children =>
    rw [tryPushdownOrClause]
    cases hch : child.columnComparison with
    | none => exact .of_noPushdown
    | some comparison =>
      obtain ⟨columnIndex, comparisonType, value⟩ := comparison
      dsimp only
      cases hloop : orClauseLoop columnIds (columnIds columnIndex) (comparisonFilters comparisonType value) children with
      | none => exact .of_noPushdown
      | some childFilters =>
        refine .of_partially fun row hrow hexpr => (TableFilterSet.passes_pushFilter ..).2 ⟨hrow, ?_⟩
        rw [TableFilter.passes, TableFilter.passes, passesAny_orClauseLoop_iff hloop, passesAny_comparisonFilters_iff,
          ← OrChild.evaluate_of_columnComparison hch]
        exact (exists_mem_cons_iff _ _ _).1 (evaluate_conjunctionOr_eq_true.1 hexpr)

theorem sound_function_iff {f : ScanFunction} {columnIndex : ℕ} {literal : Option (List UInt8)}
    (hvld : ∀ l, literal = some l → ∃ text, utf8Encode text = l) :
    (ScanExpression.function f (.boundColumnRef columnIndex) (.boundConstant literal)).Sound columnIds ↔
      (ScanExpression.function f (.boundColumnRef columnIndex) (.boundConstant literal)).LiteralSuits := by
  cases literal with
  | none =>
    refine iff_of_false (fun hsound => ?_) id
    obtain ⟨pushed, hok, hrt⟩ := hsound fun _ => none
    cases f with
    | prefixFun => exact nomatch hok
    | like =>
      -- The filter is said to be pushed fully, but any string passes `IsNotNullFilter`.
      cases hok
      have hrow := hrt.fully rfl (fun _ => some []) <|
        (TableFilterSet.passes_pushFilter ..).2 ⟨fun _ _ h => (nomatch h), rfl⟩
      exact nomatch hrow
  | some literal =>
    obtain ⟨text, htext⟩ := hvld literal rfl
    cases f with
    | prefixFun =>
      refine ⟨fun hsound => ?_, sound_prefixFun ⟨text, htext⟩⟩
      by_contra hnot
      have hne : literal ≠ [] := by
        rintro rfl
        exact hnot ⟨by decide, by decide⟩
      obtain ⟨pushed, hok, -⟩ := hsound fun _ => none
      rw [tryPushdownExpression_prefixFun, if_neg hne, pushRange_error hne htext hnot] at hok
      exact nomatch hok
    | like =>
      refine ⟨fun hsound => ?_, sound_like ⟨text, htext⟩⟩
      change literal.all isOrdinary = true ∨ CanIncrement (literal.takeWhile isOrdinary)
      by_contra hnot
      rw [not_or] at hnot
      obtain ⟨first, hfst⟩ := exists_takeWhile_utf8Encode text
      rw [htext] at hfst
      have hne : literal.takeWhile isOrdinary ≠ [] := by
        intro hnil
        exact hnot.2 (hnil ▸ ⟨by decide, by decide⟩)
      have hspec : ¬(literal.headD 0 = percentage ∨ literal.headD 0 = underscore) := by
        cases literal with
        | nil => exact absurd rfl hne
        | cons b literal =>
          intro hb
          have hb' : ¬isOrdinary b = true := fun h => not_or.2 (LikeOptimizationRule.isOrdinary_iff.1 h) hb
          exact hne (takeWhile_cons_of_neg hb')
      obtain ⟨pushed, hok, -⟩ := hsound fun _ => none
      rw [tryPushdownExpression_like, if_neg hspec, if_neg hnot.1, pushRange_error hne hfst hnot.2] at hok
      exact nomatch hok

/-- With any literal that is a text or `NULL`, pushing down is right if and only if the literal suits. -/
theorem ScanExpression.sound_iff (expr : ScanExpression t) (hvalid : expr.LiteralValid) :
    expr.Sound columnIds ↔ expr.LiteralSuits := by
  cases expr with
  | compareIn operand first rest => exact iff_of_true (sound_compareIn operand first rest) trivial
  | conjunctionOr children => exact iff_of_true (sound_conjunctionOr children) trivial
  | function f string pattern =>
    have hoth : (∀ tableFilters, tryPushdownExpression columnIds tableFilters (.function f string pattern) =
        .ok (.noPushdown, tableFilters)) → (ScanExpression.function f string pattern).Sound columnIds :=
      fun h tableFilters => ⟨_, h tableFilters, .of_noPushdown⟩
    cases string with
    | boundColumnRef columnIndex =>
      cases pattern with
      | boundConstant literal =>
        refine sound_function_iff ?_
        rintro l rfl
        exact hvalid
      | boundColumnRef columnIndex' =>
        refine iff_of_true (hoth fun _ => ?_) ?_ <;> cases f <;> first | rfl | trivial
      | other value => refine iff_of_true (hoth fun _ => ?_) ?_ <;> cases f <;> first | rfl | trivial
    | boundConstant value
    | other value => refine iff_of_true (hoth fun _ => ?_) ?_ <;> cases f <;> first | rfl | trivial

/-- A prefix whose last byte can be incremented. -/
theorem sound_iff_prefix_a :
    (ScanExpression.function .prefixFun (.boundColumnRef 0) (.boundConstant (some (utf8Encode ['a'])))).Sound id ↔
      (ScanExpression.function .prefixFun (.boundColumnRef 0)
        (.boundConstant (some (utf8Encode ['a'])))).LiteralSuits :=
  ScanExpression.sound_iff _ ⟨['a'], rfl⟩

/-- The bytes of `'¿'` end with `0xBF`. -/
theorem not_sound_prefix :
    ¬(ScanExpression.function .prefixFun (.boundColumnRef 0) (.boundConstant (some (utf8Encode ['¿'])))).Sound id ∧
      ¬(ScanExpression.function .like (.boundColumnRef 0) (.boundConstant none)).Sound id := by
  constructor
  · intro h
    have hsuits := (sound_function_iff fun l hl => ⟨['¿'], Option.some.inj hl⟩).1 h
    exact absurd hsuits.2 (by decide)
  · intro h
    refine (sound_function_iff ?_).1 h
    exact fun l hl => nomatch hl

end Expressions

end WfOpt

import WfOpt.Optimizer.ConstantComparison
import WfOpt.Optimizer.FilterPushdown

/-!
# The filter combiner

`FilterCombiner` takes the conjuncts of a filter one by one and gives other conjuncts that say the same. It keeps
sets of expressions that are equal to each other, the comparisons of these with constants, and the conjuncts that are
neither (`remaining_filters`). A comparison of two columns is looked up among the latter whenever a constant is added,
and then gives a comparison with the constant (a transitive filter).
-/

namespace WfOpt

open Function

/-! ## Conjuncts -/

/-- An operand of a comparison: a constant, or an expression over the row. -/
inductive FilterOperand (α E : Type)
  | boundConstant (value : Option α)
  | expression (expr : E)
  deriving DecidableEq

/-- `BoundComparisonExpression` -/
structure BoundComparison (α E : Type) where
  comparisonType : ComparisonType
  left : FilterOperand α E
  right : FilterOperand α E
  deriving DecidableEq

/-- A conjunct: a comparison, a BETWEEN, a foldable boolean, or something else. -/
inductive FilterConjunct (α E F : Type)
  | comparison (comparison : BoundComparison α E)
  | between (input lower upper : FilterOperand α E) (lowerInclusive upperInclusive : Bool)
  | scalar (value : Option Bool)
  | other (expr : F)
  deriving DecidableEq

/-- What is known of the expressions: their values, and types. -/
structure FilterContext (α E F R : Type) where
  value : E → R → Option α
  holds : F → R → Bool
  isColumnRef : E → Bool
  sameType : FilterOperand α E → α → Bool

/-- The comparison of a lower bound. -/
def greaterThanType (inclusive : Bool) : ComparisonType := if inclusive then .greaterThanOrEqualTo else .greaterThan

/-- The comparison of an upper bound. -/
def lessThanType (inclusive : Bool) : ComparisonType := if inclusive then .lessThanOrEqualTo else .lessThan

section Values

variable {α E F R : Type} [LinearOrder α]

def FilterOperand.evaluate (context : FilterContext α E F R) (row : R) : FilterOperand α E → Option α
  | .boundConstant value => value
  | .expression expr => context.value expr row

/-- The operand if it `IsFoldable`. -/
def FilterOperand.scalar? : FilterOperand α E → Option (Option α)
  | .boundConstant value => some value
  | .expression _ => none

/-- The row makes the comparison `TRUE`. -/
def BoundComparison.IsTrue (context : FilterContext α E F R) (comparison : BoundComparison α E) (row : R) : Prop :=
  comparison.comparisonType.evaluate (comparison.left.evaluate context row)
    (comparison.right.evaluate context row) = some true

/-- The row makes the conjunct `TRUE`. -/
def FilterConjunct.IsTrue (context : FilterContext α E F R) : FilterConjunct α E F → R → Prop
  | .comparison filter, row => filter.IsTrue context row
  | .between input lower upper lowerInclusive upperInclusive, row =>
    BoundComparison.IsTrue context ⟨greaterThanType lowerInclusive, input, lower⟩ row ∧
      BoundComparison.IsTrue context ⟨lessThanType upperInclusive, input, upper⟩ row
  | .scalar value, _ => value = some true
  | .other expr, row => context.holds expr row = true

/-- Whether a foldable conjunct passes. -/
def FilterConjunct.scalar? : FilterConjunct α E F → Option Bool
  | .comparison ⟨comparisonType, .boundConstant left, .boundConstant right⟩ =>
    some (comparisonType.evaluate left right = some true)
  | .between (.boundConstant input) (.boundConstant lower) (.boundConstant upper) lowerInclusive upperInclusive =>
    some ((greaterThanType lowerInclusive).evaluate input lower = some true ∧
      (lessThanType upperInclusive).evaluate input upper = some true)
  | .scalar value => some (value = some true)
  | _ => none

end Values

/-! ## The state -/

/-- `FilterCombiner` -/
structure FilterCombiner (α E F : Type) where
  remainingFilters : List (FilterConjunct α E F)
  equivalenceSetMap : FilterOperand α E → Option ℕ
  equivalenceMap : ℕ → List (FilterOperand α E)
  constantValues : ℕ → List (ValueInformation α)
  setIndex : ℕ

namespace FilterCombiner

variable {α E F R : Type} [LinearOrder α] [DecidableEq E]

/-- A combiner with no filters. -/
def empty : FilterCombiner α E F := ⟨[], fun _ => none, fun _ => [], fun _ => [], 0⟩

/-- `GetEquivalenceSet` -/
def getEquivalenceSet (combiner : FilterCombiner α E F) (expr : FilterOperand α E) : ℕ × FilterCombiner α E F :=
  match combiner.equivalenceSetMap expr with
  | some index => (index, combiner)
  | none =>
    let index := combiner.setIndex
    (index, { combiner with
      setIndex := index + 1
      equivalenceSetMap := update combiner.equivalenceSetMap expr (some index)
      equivalenceMap := update combiner.equivalenceMap index (combiner.equivalenceMap index ++ [expr]) })

/-- `AddConstantComparison` to the bucket of an equivalence set -/
def addConstant (combiner : FilterCombiner α E F) (equivalenceSet : ℕ) (constant : Option α)
    (comparisonType : ComparisonType) : FilterResult × FilterCombiner α E F :=
  let added := addConstantComparison (combiner.constantValues equivalenceSet) constant comparisonType
  (added.1, { combiner with constantValues := update combiner.constantValues equivalenceSet added.2 })

/-- `remaining_filters.push_back` -/
def pushRemaining (combiner : FilterCombiner α E F) (filter : FilterConjunct α E F) : FilterCombiner α E F :=
  { combiner with remainingFilters := combiner.remainingFilters ++ [filter] }

/-! ## Transitive filters -/

/-- The loop of `FindTransitiveFilter`: the filter, and the others -/
def findTransitiveLoop (expr : FilterOperand α E) :
    List (FilterConjunct α E F) → Option (BoundComparison α E × List (FilterConjunct α E F))
  | [] => none
  | .comparison comparison :: filters =>
    if expr = comparison.right ∧ comparison.comparisonType ≠ .notEqual then some (comparison, filters)
    else (findTransitiveLoop expr filters).map (Prod.map id (.comparison comparison :: ·))
  | filter :: filters => (findTransitiveLoop expr filters).map (Prod.map id (filter :: ·))

/-- `FindTransitiveFilter` -/
def findTransitiveFilter (context : FilterContext α E F R) (combiner : FilterCombiner α E F) :
    FilterOperand α E → Option (BoundComparison α E × FilterCombiner α E F)
  | .boundConstant _ => none
  | .expression expr =>
    if context.isColumnRef expr then
      (findTransitiveLoop (.expression expr) combiner.remainingFilters).map
        (Prod.map id fun filters => { combiner with remainingFilters := filters })
    else none

/-- The comparison of the left side with a constant that the right side gets, and whether the filter is kept. -/
def transitiveType (comparisonType rightType : ComparisonType) : Option (ComparisonType × Bool) :=
  if rightType = .equal then some (comparisonType, false)
  else if comparisonType = .greaterThanOrEqualTo ∧ rightType.isGreaterThan ∨
      comparisonType = .lessThanOrEqualTo ∧ rightType.isLessThan then some (rightType, true)
  else if comparisonType = .greaterThan ∧ rightType.isGreaterThan ∨
      comparisonType = .lessThan ∧ rightType.isLessThan then some (comparisonType, true)
  else none

/-- The loop of `AddTransitiveFilters` over the constants of the right side -/
def addTransitiveLoop (comparison : BoundComparison α E) (leftEquivalenceSet : ℕ) :
    List (ValueInformation α) → Bool → Bool → FilterCombiner α E F → FilterResult × FilterCombiner α E F
  | [], _, isSuccessful, combiner => (if isSuccessful then .success else .unsupported, combiner)
  | rightConstant :: rightConstants, isInserted, isSuccessful, combiner =>
    match transitiveType comparison.comparisonType rightConstant.comparisonType with
    | none => addTransitiveLoop comparison leftEquivalenceSet rightConstants isInserted isSuccessful combiner
    | some (comparisonType, keep) =>
      let combiner := if keep && !isInserted then combiner.pushRemaining (.comparison comparison) else combiner
      match combiner.addConstant leftEquivalenceSet (some rightConstant.constant) comparisonType with
      | (.unsatisfiable, combiner) => (.unsatisfiable, combiner)
      | (_, combiner) =>
        addTransitiveLoop comparison leftEquivalenceSet rightConstants (isInserted || keep) true combiner

/-- A filter that `FindTransitiveFilter` finds for an expression is added, or put back. -/
def addFoundFilter (context : FilterContext α E F R)
    (add : BoundComparison α E → FilterCombiner α E F → FilterResult × FilterCombiner α E F)
    (expr : FilterOperand α E) (combiner : FilterCombiner α E F) : FilterResult × FilterCombiner α E F :=
  match findTransitiveFilter context combiner expr with
  | none => (.success, combiner)
  | some (filter, combiner) =>
    match add filter combiner with
    | (.unsupported, combiner) => (.success, combiner.pushRemaining (.comparison filter))
    | result => result

/-- `AddTransitiveFilters`, where `onSuccess` is what follows if a filter was added. -/
def addTransitive (onSuccess : FilterCombiner α E F → FilterResult × FilterCombiner α E F)
    (comparison : BoundComparison α E) (combiner : FilterCombiner α E F) :
    FilterResult × FilterCombiner α E F :=
  if ¬comparison.comparisonType.isGreaterThan ∧ ¬comparison.comparisonType.isLessThan then (.unsupported, combiner)
  else if comparison.left = comparison.right then (.unsupported, combiner)
  else
    let left := combiner.getEquivalenceSet comparison.left
    let right := left.2.getEquivalenceSet comparison.right
    if left.1 = right.1 then
      if comparison.comparisonType = .greaterThan ∨ comparison.comparisonType = .lessThan then
        (.unsatisfiable, right.2)
      else (.success, right.2)
    else
      match addTransitiveLoop comparison left.1 (right.2.constantValues right.1) false false right.2 with
      | (.success, combiner) => onSuccess combiner
      | result => result

/-- `AddTransitiveFilters` -/
def addTransitiveFilters (context : FilterContext α E F R) (comparison : BoundComparison α E) :
    FilterCombiner α E F → FilterResult × FilterCombiner α E F :=
  addTransitive (addFoundFilter context (addTransitive fun combiner => (.success, combiner)) comparison.left)
    comparison

/-! ## Adding filters -/

/-- `AddBoundComparisonFilter`, if the other side is a constant -/
def addScalarComparison (context : FilterContext α E F R) (node : FilterOperand α E) (constant : Option α)
    (comparisonType : ComparisonType) (combiner : FilterCombiner α E F) : FilterResult × FilterCombiner α E F :=
  let set := combiner.getEquivalenceSet node
  match constant with
  | none => (.unsatisfiable, set.2)
  | some value =>
    if ¬context.sameType node value then (.unsupported, set.2)
    else
      let added := set.2.addConstant set.1 (some value) comparisonType
      match addFoundFilter context (addTransitiveFilters context) node added.2 with
      | (.unsatisfiable, combiner) => (.unsatisfiable, combiner)
      | (_, combiner) => (added.1, combiner)

/-- The constants of the right bucket are added to the left one. -/
def addRightConstants (leftEquivalenceSet : ℕ) :
    List (ValueInformation α) → FilterCombiner α E F → FilterResult × FilterCombiner α E F
  | [], combiner => (.success, combiner)
  | rightConstant :: rightConstants, combiner =>
    match combiner.addConstant leftEquivalenceSet (some rightConstant.constant) rightConstant.comparisonType with
    | (.unsatisfiable, combiner) => (.unsatisfiable, combiner)
    | (_, combiner) => addRightConstants leftEquivalenceSet rightConstants combiner

/-- The right bucket is added to the left one, where it stays also. -/
def mergeBuckets (combiner : FilterCombiner α E F) (leftEquivalenceSet rightEquivalenceSet : ℕ) :
    FilterCombiner α E F :=
  let rightBucket := combiner.equivalenceMap rightEquivalenceSet
  { combiner with
    equivalenceSetMap := fun expr =>
      if expr ∈ rightBucket then some leftEquivalenceSet else combiner.equivalenceSetMap expr
    equivalenceMap := update combiner.equivalenceMap leftEquivalenceSet
      (combiner.equivalenceMap leftEquivalenceSet ++ rightBucket) }

/-- `AddBoundComparisonFilter` for `=`, if none of the sides is a constant -/
def addEquality (left right : FilterOperand α E) (combiner : FilterCombiner α E F) :
    FilterResult × FilterCombiner α E F :=
  if left = right then (.unsupported, combiner)
  else
    let leftSet := combiner.getEquivalenceSet left
    let rightSet := leftSet.2.getEquivalenceSet right
    if leftSet.1 = rightSet.1 then (.success, rightSet.2)
    else
      addRightConstants leftSet.1 (rightSet.2.constantValues rightSet.1)
        (rightSet.2.mergeBuckets leftSet.1 rightSet.1)

/-- `AddBoundComparisonFilter` -/
def addBoundComparisonFilter (context : FilterContext α E F R) (comparison : BoundComparison α E)
    (combiner : FilterCombiner α E F) : FilterResult × FilterCombiner α E F :=
  if ¬comparison.comparisonType.isSupported then (.unsupported, combiner)
  else
    match comparison.left.scalar?, comparison.right.scalar? with
    | some constant, _ =>
      addScalarComparison context comparison.right constant comparison.comparisonType.flip combiner
    | none, some constant => addScalarComparison context comparison.left constant comparison.comparisonType combiner
    | none, none =>
      if comparison.comparisonType ≠ .equal then (.unsupported, combiner)
      else addEquality comparison.left comparison.right combiner

/-- `AddFilter` for a BETWEEN, one of whose bounds is a constant -/
def addBetween (context : FilterContext α E F R) (input lower upper : FilterOperand α E)
    (lowerInclusive upperInclusive : Bool) (combiner : FilterCombiner α E F) :
    FilterResult × FilterCombiner α E F :=
  let set := combiner.getEquivalenceSet input
  let result := match lower.scalar? with
    | some constant => set.2.addConstant set.1 constant (greaterThanType lowerInclusive)
    -- The comparison has the inclusiveness of the upper bound.
    | none => set.2.addBoundComparisonFilter context ⟨lessThanType upperInclusive, lower, input⟩
  if result.1 ≠ .success then result
  else
    match upper.scalar? with
    | some constant => result.2.addConstant set.1 constant (lessThanType upperInclusive)
    | none => result.2.addBoundComparisonFilter context ⟨lessThanType upperInclusive, input, upper⟩

/-- `AddFilter` of an expression -/
def addExpression (context : FilterContext α E F R) (expr : FilterConjunct α E F)
    (combiner : FilterCombiner α E F) : FilterResult × FilterCombiner α E F :=
  match expr.scalar? with
  | some passes => (if passes then .success else .unsatisfiable, combiner)
  | none =>
    match expr with
    | .between input lower upper lowerInclusive upperInclusive =>
      if lower.scalar?.isSome ∨ upper.scalar?.isSome then
        combiner.addBetween context input lower upper lowerInclusive upperInclusive
      else (.unsupported, combiner)
    | .comparison comparison => combiner.addBoundComparisonFilter context comparison
    | _ => (.unsupported, combiner)

/-- `AddFilter` -/
def addFilter (context : FilterContext α E F R) (expr : FilterConjunct α E F) (combiner : FilterCombiner α E F) :
    FilterResult × FilterCombiner α E F :=
  match combiner.addExpression context expr with
  | (.unsupported, combiner) => (.success, combiner.pushRemaining expr)
  | result => result

/-- Filters are added until one of them makes the filter unsatisfiable. -/
def addFilters (context : FilterContext α E F R) :
    List (FilterConjunct α E F) → FilterCombiner α E F → Option (FilterCombiner α E F)
  | [], combiner => some combiner
  | expr :: exprs, combiner =>
    match combiner.addFilter context expr with
    | (.unsatisfiable, _) => none
    | (_, combiner) => addFilters context exprs combiner

/-! ## Generating filters -/

/-- The loop of `GenerateFilters` over the constants of a set: the other filters, and the last lower and upper bound -/
def constantFiltersLoop (entry : FilterOperand α E) :
    List (ValueInformation α) → Option (ValueInformation α) → Option (ValueInformation α) →
      List (FilterConjunct α E F) × Option (ValueInformation α) × Option (ValueInformation α)
  | [], lower, upper => ([], lower, upper)
  | info :: constants, lower, upper =>
    if info.comparisonType.isGreaterThan then constantFiltersLoop entry constants (some info) upper
    else if info.comparisonType.isLessThan then constantFiltersLoop entry constants lower (some info)
    else
      (constantFiltersLoop entry constants lower upper).map
        (.comparison ⟨info.comparisonType, entry, .boundConstant (some info.constant)⟩ :: ·) id

/-- The filter for the bounds of an entry -/
def boundFilters (entry : FilterOperand α E) :
    Option (ValueInformation α) → Option (ValueInformation α) → List (FilterConjunct α E F)
  | some lower, some upper =>
    [.between entry (.boundConstant (some lower.constant)) (.boundConstant (some upper.constant))
      (lower.comparisonType = .greaterThanOrEqualTo) (upper.comparisonType = .lessThanOrEqualTo)]
  | some lower, none => [.comparison ⟨lower.comparisonType, entry, .boundConstant (some lower.constant)⟩]
  | none, some upper => [.comparison ⟨upper.comparisonType, entry, .boundConstant (some upper.constant)⟩]
  | none, none => []

/-- `GenerateFilters`: the comparisons of an entry with the constants of its set -/
def constantFilters (constants : List (ValueInformation α)) (entry : FilterOperand α E) :
    List (FilterConjunct α E F) :=
  let filters := constantFiltersLoop entry constants none none
  filters.1 ++ boundFilters entry filters.2.1 filters.2.2

/-- `GenerateFilters`: the filters of a set -/
def setFilters (constants : List (ValueInformation α)) : List (FilterOperand α E) → List (FilterConjunct α E F)
  | [] => []
  | entry :: entries =>
    entries.map (fun other => .comparison ⟨.equal, entry, other⟩) ++ constantFilters constants entry ++
      setFilters constants entries

/-- `GenerateFilters` -/
def generateFilters (combiner : FilterCombiner α E F) : List (FilterConjunct α E F) :=
  combiner.remainingFilters ++ (List.range combiner.setIndex).flatMap fun index =>
      setFilters (combiner.constantValues index) (combiner.equivalenceMap index)

end FilterCombiner

end WfOpt

import WfOpt.Lib.Bisection
import WfOpt.Lib.Cells
import WfOpt.Sort.Key
import WfOpt.Window.FindStart
import WfOpt.Window.MergeSortTree
import WfOpt.Window.SegmentTree

/-!
# Window boundaries

For each row of a chunk, a window function needs some of eight bounds: the start and the end of its partition, of
its group of peers, of the rows whose ordering value is not `NULL`, and of its frame (`WindowBoundariesState`).

Only the required columns are computed (`getWindowBounds`), in the order of `BoundsColumn`; what a column has before
is left over from earlier calls. The state carries the bounds of the last row to the next call, unless that call
jumps elsewhere.
-/

namespace WfOpt

open Function

/-! ## Window expressions -/

/-- `WindowBounds`: the columns of the bounds chunk. -/
inductive BoundsColumn
  | partitionBegin
  | partitionEnd
  | peerBegin
  | peerEnd
  | validBegin
  | validEnd
  | frameBegin
  | frameEnd
  deriving DecidableEq, Repr

/-- `WindowBoundary` -/
inductive WindowBoundary
  | invalid
  | unboundedPreceding
  | unboundedFollowing
  | currentRowRange
  | currentRowRows
  | exprPrecedingRows
  | exprFollowingRows
  | exprPrecedingRange
  | exprFollowingRange
  | currentRowGroups
  | exprPrecedingGroups
  | exprFollowingGroups
  deriving DecidableEq, Repr

/-- The types of window expressions. -/
inductive WindowType
  | rowNumber
  | ntile
  | rank
  | rankDense
  | percentRank
  | cumeDist
  | lead
  | lag
  | fill
  | firstValue
  | lastValue
  | nthValue
  | aggregate
  deriving DecidableEq, Repr

/-- `BoundWindowExpression`, with the numbers of its partitions and of the orders of its argument. -/
structure BoundWindowExpression where
  type : WindowType
  partitions : ℕ
  orders : List OrderType
  argOrders : ℕ
  start : WindowBoundary
  stop : WindowBoundary
  excludeClause : WindowExcludeMode

namespace BoundWindowExpression

variable (w : BoundWindowExpression)

/-- `HasFollowingRange` -/
def hasFollowingRange : Bool := w.start = .exprFollowingRange || w.stop = .exprFollowingRange

/-- The bounds the executor of the function needs. -/
def executorBounds : Finset BoundsColumn := match w.type with
  | .rowNumber => if w.argOrders = 0 then {.partitionBegin} else {.frameBegin, .frameEnd}
  | .ntile =>
    if w.argOrders = 0 then {.partitionBegin, .partitionEnd} else {.frameBegin, .frameEnd}
  | .rank =>
    if w.argOrders = 0 then {.partitionBegin, .peerBegin} else {.frameBegin, .frameEnd, .peerBegin}
  | .rankDense => {.partitionBegin, .peerBegin}
  | .percentRank =>
    if w.argOrders = 0 then {.partitionBegin, .partitionEnd, .peerBegin}
    else {.frameBegin, .frameEnd, .peerBegin}
  | .cumeDist =>
    if w.argOrders = 0 then {.partitionBegin, .partitionEnd, .peerEnd}
    else {.frameBegin, .frameEnd, .peerEnd}
  | .lead | .lag =>
    if w.argOrders = 0 then {.partitionBegin, .partitionEnd} else {.frameBegin, .frameEnd}
  | .fill =>
    {.frameBegin, .frameEnd} ∪ if w.argOrders = 0 then {.validBegin, .validEnd} else ∅
  | .firstValue | .lastValue | .nthValue | .aggregate => {.frameBegin, .frameEnd}

/-- The bounds the start of a frame is computed from. -/
def startBounds : WindowBoundary → Finset BoundsColumn
  | .currentRowRange | .currentRowGroups => {.peerBegin}
  | .exprPrecedingRange => {.peerBegin, .validBegin, .validEnd}
  | .exprFollowingRange => {.peerBegin, .validEnd}
  | .exprPrecedingGroups => {.peerBegin}
  | .exprFollowingGroups => {.peerBegin}
  | .unboundedPreceding | .unboundedFollowing | .currentRowRows | .exprPrecedingRows
  | .exprFollowingRows | .invalid => ∅

/-- The bounds the end of a frame is computed from. -/
def endBounds : WindowBoundary → Finset BoundsColumn
  | .currentRowRange | .currentRowGroups => {.peerEnd}
  | .exprPrecedingRange => {.peerEnd, .validBegin}
  | .exprFollowingRange => {.peerEnd, .validBegin, .validEnd}
  | .exprPrecedingGroups => {.peerEnd}
  | .exprFollowingGroups => {.peerEnd}
  | .unboundedPreceding | .unboundedFollowing | .currentRowRows | .exprPrecedingRows
  | .exprFollowingRows | .invalid => ∅

/-- The bounds a frame is computed from. -/
def frameBounds : Finset BoundsColumn := {.partitionBegin, .partitionEnd} ∪
    ((if w.excludeClause = .noOther then ∅ else {.peerBegin, .peerEnd}) ∪ (startBounds w.start ∪ endBounds w.stop))

/-- More bounds are required if a condition holds of those that are. -/
@[irreducible] def requireIf (condition : Finset BoundsColumn → Bool) (more result : Finset BoundsColumn) :
    Finset BoundsColumn := if condition result then result ∪ more else result

@[irreducible] def requireForFrames : Finset BoundsColumn → Finset BoundsColumn :=
  requireIf (fun r => .frameBegin ∈ r ∨ .frameEnd ∈ r) w.frameBounds

@[irreducible] def requireForValidEnd : Finset BoundsColumn → Finset BoundsColumn :=
  requireIf (.validEnd ∈ ·) ({.partitionEnd} ∪ if w.hasFollowingRange then {.validBegin} else ∅)

@[irreducible] def requireForValidBegin : Finset BoundsColumn → Finset BoundsColumn :=
  requireIf (.validBegin ∈ ·) {.partitionBegin, .partitionEnd}

@[irreducible] def requireForPeerEnd : Finset BoundsColumn → Finset BoundsColumn :=
  requireIf (.peerEnd ∈ ·) ({.partitionEnd} ∪ if w.orders.length = 0 then ∅ else {.peerBegin})

@[irreducible] def requireForPartitionEnd : Finset BoundsColumn → Finset BoundsColumn :=
  requireIf (fun r => .partitionEnd ∈ r ∧ w.partitions + w.orders.length ≠ 0) {.partitionBegin}

/-- `GetWindowBounds` -/
@[irreducible] def getWindowBounds : Finset BoundsColumn :=
  w.requireForPartitionEnd <| w.requireForPeerEnd <| requireForValidBegin <|
    w.requireForValidEnd <| w.requireForFrames w.executorBounds

end BoundWindowExpression

/-! ## The state -/

/-- What a window function may fail with while bounds are computed. -/
inductive BoundsError
  | outOfRange (text : String)
  | internal (text : String)
  deriving DecidableEq

/-- The cells of the ordering column of a group (`WindowCursor`). -/
structure RangeCursor (V : Type*) where
  cellIsNull : ℕ → Bool
  getCell : ℕ → V

/-- `WindowInputExpression`: the cells of a boundary in a chunk, numbers of rows or groups, or ordering values. -/
structure WindowInputExpression (V : Type*) where
  cellIsNull : ℕ → Bool
  getInt64 : ℕ → BitVec 64
  getCell : ℕ → V

/-- The columns of the bounds chunk. -/
abbrev BoundsColumns := BoundsColumn → ℕ → ℕ

namespace BoundsColumns

variable (b : BoundsColumns)

/-- Values are stored in a column, from its first cell on. -/
def store (bound : BoundsColumn) (vs : List ℕ) : BoundsColumns := update b bound (storeCells (b bound) vs)

/-- The first cells of a column are computed one by one. -/
def fill (count : ℕ) (bound : BoundsColumn) (f : ℕ → ℕ) : BoundsColumns := b.store bound ((List.range count).map f)

/-- `Vector::Reference` -/
def reference (bound source : BoundsColumn) : BoundsColumns := update b bound (b source)

/-- `ClampFrame`, for the cells of a column. -/
def clampFrame (count : ℕ) (bound : BoundsColumn) : BoundsColumns :=
  b.fill count bound fun i => min (max (b bound i) (b .partitionBegin i)) (b .partitionEnd i)

variable {b} {bound other source : BoundsColumn} {count i : ℕ}

@[simp] theorem store_self (vs : List ℕ) : b.store bound vs bound = storeCells (b bound) vs := update_self _ _ _

theorem store_of_ne (h : other ≠ bound) (vs : List ℕ) : b.store bound vs other = b other := update_of_ne h _ _

theorem fill_of_lt (h : i < count) (f : ℕ → ℕ) : b.fill count bound f bound i = f i := by
  rw [fill, store_self, storeCells_map h]

theorem fill_of_ne (h : other ≠ bound) (f : ℕ → ℕ) : b.fill count bound f other = b other := store_of_ne h _

@[simp] theorem reference_self : b.reference bound source bound = b source := update_self _ _ _

theorem reference_of_ne (h : other ≠ bound) : b.reference bound source other = b other := update_of_ne h _ _

theorem clampFrame_of_lt (h : i < count) : b.clampFrame count bound bound i =
    min (max (b bound i) (b .partitionBegin i)) (b .partitionEnd i) := fill_of_lt h _

theorem clampFrame_of_ne (h : other ≠ bound) : b.clampFrame count bound other = b other := fill_of_ne h _

theorem clampFrame_fill (h : i < count) (hbeg : .partitionBegin ≠ bound) (hend : .partitionEnd ≠ bound) (f : ℕ → ℕ) :
    (b.fill count bound f).clampFrame count bound bound i =
      min (max (f i) (b .partitionBegin i)) (b .partitionEnd i) := by
  rw [clampFrame_of_lt h, fill_of_lt h, fill_of_ne hbeg, fill_of_ne hend]

end BoundsColumns

/-- The fields of `WindowBoundariesState` that are carried between chunks. `prev` is set before it is read. -/
structure WindowBoundariesState where
  nextPos : ℕ
  partitionStart : ℕ
  partitionEnd : ℕ
  peerStart : ℕ
  validStart : ℕ
  validEnd : ℕ

/-- The state as it is constructed. -/
def WindowBoundariesState.new : WindowBoundariesState := ⟨0, 0, 0, 0, 0, 0⟩

/-- A call of `Bounds` for a chunk: its first row, its rows and the boundary expressions. -/
structure BoundsCall (V : Type*) where
  rowIdx : ℕ
  count : ℕ
  boundaryStart : WindowInputExpression V
  boundaryEnd : WindowInputExpression V

/-- A window expression, and the rows of a group, with the masks of its partitions and peers. -/
structure WindowBoundaries (V : Type*) where
  wexpr : BoundWindowExpression
  inputSize : ℕ
  partitionMask : ValidityMask
  orderMask : ValidityMask
  range : RangeCursor V

namespace WindowBoundaries

variable {V : Type*} (g : WindowBoundaries V)

/-- The required bounds. -/
def required : Finset BoundsColumn := g.wexpr.getWindowBounds

def partitionCount : ℕ := g.wexpr.partitions

def orderCount : ℕ := g.wexpr.orders.length

/-- A step that is only taken if its bound is required. -/
def whenRequired {α : Type*} (bound : BoundsColumn) (step : α → α) (x : α) : α :=
  if bound ∈ g.required then step x else x

theorem whenRequired_of_mem {g : WindowBoundaries V} {α : Type*} {bound : BoundsColumn}
    (h : bound ∈ g.required) (step : α → α) (x : α) : g.whenRequired bound step x = step x := if_pos h

theorem whenRequired_of_not_mem {g : WindowBoundaries V} {α : Type*} {bound : BoundsColumn}
    (h : bound ∉ g.required) (step : α → α) (x : α) : g.whenRequired bound step x = x := if_neg h

/-! ## Partitions and peers -/

section Rows

variable (call : BoundsCall V)

/-- The start of the partition of a row, given that of the row before. -/
def partitionBeginCell (i : ℕ) (s : ℕ × Bool) : (ℕ × Bool) × ℕ := let row := call.rowIdx + i
  let start := if g.partitionMask.rowIsValid row || s.2 then
      if s.2 then (g.partitionMask.findPrevStart 0 (row + 1) 1).1 else row
    else s.1
  ((start, false), start)

/-- `PartitionBegin` -/
def partitionBegin (isJump : Bool) (p : WindowBoundariesState × BoundsColumns) :
    WindowBoundariesState × BoundsColumns :=
  if g.partitionCount + g.orderCount = 0 then (p.1, p.2.fill call.count .partitionBegin fun _ => 0)
  else
    let r := scanCells (g.partitionBeginCell call) call.count 0 (p.1.partitionStart, isJump)
    ({ p.1 with partitionStart := r.1.1 }, p.2.store .partitionBegin r.2)

/-- The end of the partition of a row, given that of the row before. -/
def partitionEndCell (b : BoundsColumns) (i : ℕ) (s : ℕ × Bool) : (ℕ × Bool) × ℕ := let row := call.rowIdx + i
  let stop := if g.partitionMask.rowIsValid row || s.2 then
      if g.partitionCount = 0 then g.inputSize
      else (g.partitionMask.findNextStart (b .partitionBegin i + 1) g.inputSize 1).1
    else s.1
  ((stop, false), stop)

/-- `PartitionEnd` -/
def partitionEnd (isJump : Bool) (p : WindowBoundariesState × BoundsColumns) :
    WindowBoundariesState × BoundsColumns :=
  if g.partitionCount + g.orderCount = 0 then
    (p.1, p.2.fill call.count .partitionEnd fun _ => g.inputSize)
  else
    let r := scanCells (g.partitionEndCell call p.2) call.count 0 (p.1.partitionEnd, isJump)
    ({ p.1 with partitionEnd := r.1.1 }, p.2.store .partitionEnd r.2)

/-- The start of the peers of a row, given that of the row before. -/
def peerBeginCell (i : ℕ) (s : ℕ × Bool) : (ℕ × Bool) × ℕ := let row := call.rowIdx + i
  let start := if g.partitionMask.rowIsValid row || s.2 then
      if s.2 then (g.orderMask.findPrevStart 0 (row + 1) 1).1 else row
    else if g.orderMask.rowIsValid row then row
    else s.1
  ((start, false), start)

/-- `PeerBegin` -/
def peerBegin (isJump : Bool) (p : WindowBoundariesState × BoundsColumns) : WindowBoundariesState × BoundsColumns :=
  if g.partitionCount + g.orderCount = 0 then (p.1, p.2.fill call.count .peerBegin fun _ => 0)
  else
    let r := scanCells (g.peerBeginCell call) call.count 0 (p.1.peerStart, isJump)
    ({ p.1 with peerStart := r.1.1 }, p.2.store .peerBegin r.2)

/-- The end of the peers of a row, given that of the row before. -/
def peerEndCell (b : BoundsColumns) (i : ℕ) (prevEnd : ℕ) : ℕ × ℕ := let peerStart := b .peerBegin i
  let prevEnd := if prevEnd ≤ peerStart then
      (g.orderMask.findNextStart (peerStart + 1) (b .partitionEnd i) 1).1
    else prevEnd
  (prevEnd, prevEnd)

/-- `PeerEnd` -/
def peerEnd (p : WindowBoundariesState × BoundsColumns) : WindowBoundariesState × BoundsColumns :=
  if g.orderCount = 0 then (p.1, p.2.reference .peerEnd .partitionEnd)
  else
    let r := scanCells (g.peerEndCell p.2) call.count 0 (p.2 .peerBegin 0)
    (p.1, p.2.store .peerEnd r.2)

/-! ## Rows with ordering values -/

/-- The first row of a partition whose ordering value is not `NULL`, given that of the row before. -/
def validBeginCell (isJump : Bool) (b : BoundsColumns) (i : ℕ) (validStart : ℕ) : ℕ × ℕ := let row := call.rowIdx + i
  let validStart := if g.partitionMask.rowIsValid row || isJump then
      let validStart := b .partitionBegin i
      let validEnd := b .partitionEnd i
      if validStart < validEnd && g.range.cellIsNull validStart then
        (g.orderMask.findNextStart (validStart + 1) validEnd 1).1
      else validStart
    else validStart
  (validStart, validStart)

/-- `ValidBegin` -/
def validBegin (isJump : Bool) (p : WindowBoundariesState × BoundsColumns) : WindowBoundariesState × BoundsColumns :=
  let r := scanCells (g.validBeginCell call isJump p.2) call.count 0 p.1.validStart
  ({ p.1 with validStart := r.1 }, p.2.store .validBegin r.2)

/-- The end of the rows of a partition whose ordering value is not `NULL`, given that of the row
    before. -/
def validEndCell (isJump : Bool) (b : BoundsColumns) (i : ℕ) (validEnd : ℕ) : ℕ × ℕ := let row := call.rowIdx + i
  let validEnd := if g.partitionMask.rowIsValid row || isJump then
      let validStart := b .validBegin i
      let validEnd := b .partitionEnd i
      if validStart < validEnd && g.range.cellIsNull (validEnd - 1) then
        (g.orderMask.findPrevStart validStart validEnd 1).1
      else validEnd
    else validEnd
  (validEnd, validEnd)

/-- `ValidEnd` -/
def validEnd (isJump : Bool) (p : WindowBoundariesState × BoundsColumns) : WindowBoundariesState × BoundsColumns :=
  let r := scanCells (g.validEndCell call isJump p.2) call.count 0 p.1.validEnd
  ({ p.1 with validEnd := r.1 }, p.2.store .validEnd r.2)

end Rows

/-! ## Frames of rows and of groups -/

/-- A signed number of `static_cast<int64_t>`. -/
def int64 (n : ℕ) : BitVec 64 := BitVec.ofNat 64 n

/-- `TrySubtractOperator` -/
def trySubtract (x y : BitVec 64) : Option (BitVec 64) := if x.ssubOverflow y then none else some (x - y)

/-- `TryAddOperator` -/
def tryAdd (x y : BitVec 64) : Option (BitVec 64) := if x.saddOverflow y then none else some (x + y)

/-- The bound of a frame of rows: what is computed, from zero on, or else a bound of the partition. -/
def rowsBound (computed : Option (BitVec 64)) (partitionBound : ℕ) : ℕ := match computed with
  | none => partitionBound
  | some v => (max v.toInt 0).toNat

/-- The bound of a frame of groups: that of the peers, or what is found by counting groups. -/
def groupsBound (boundary : WindowInputExpression V) (i peer : ℕ) (text : String)
    (search : ℕ → ℕ) : Except BoundsError (Unit × ℕ) :=
  if boundary.cellIsNull i then .ok ((), peer)
  else
    let n := boundary.getInt64 i
    if n.toInt < 0 then .error (.outOfRange text)
    else if n = 0 then .ok ((), peer)
    else .ok ((), search n.toNat)

/-! ## Frames of ranges -/

section Range

variable [LinearOrder V]

/-- The comparison of ordering values, `LessThan` or `GreaterThan`. -/
def comp : OrderType → V → V → Bool
  | .ascending, x, y => x < y
  | .descending, x, y => y < x

/-- `std::lower_bound`, for rows from `first` to `last`. -/
def lowerBound (sense : OrderType) (value : ℕ → V) (first last : ℕ) (val : V) : ℕ :=
  partitionPoint (fun i => comp sense (value i) val) first last

/-- `std::upper_bound`, for rows from `first` to `last`. -/
def upperBound (sense : OrderType) (value : ℕ → V) (first last : ℕ) (val : V) : ℕ :=
  partitionPoint (fun i => !comp sense val (value i)) first last

/-- What is done with the previous bounds: the search is over, or it is restricted. -/
inductive RangeHint
  | done (row : ℕ)
  | search (row : ℕ)

/-- Where the search starts, given the start of the previous frame. -/
def hintBegin (sense : OrderType) (fromStart : Bool) (value : ℕ → V) (orderBegin orderEnd : ℕ) (val : V)
    (prev : FrameBounds) : RangeHint :=
  if prev.start < prev.stop ∧ orderBegin ≤ prev.start ∧ prev.start < orderEnd ∧ fromStart ∧
      ¬comp sense val (value prev.start) then
    if comp sense (value prev.start) val then .search prev.start else .done prev.start
  else .search orderBegin

/-- Where the search ends, given the end of the previous frame. -/
def hintEnd (sense : OrderType) (fromStart : Bool) (value : ℕ → V) (orderBegin orderEnd : ℕ) (val : V)
    (prev : FrameBounds) : RangeHint :=
  if prev.start < prev.stop ∧ orderBegin < prev.stop ∧ prev.stop < orderEnd ∧
      ¬comp sense (value (prev.stop - 1)) val then
    if ¬fromStart ∧ ¬comp sense val (value (prev.stop - 1)) then .done prev.stop
    else .search (prev.stop + 1)
  else .search orderEnd

/-- The search of `FindTypedRangeBound`. -/
def searchRange (sense : OrderType) (fromStart : Bool) (value : ℕ → V) (orderBegin orderEnd : ℕ)
    (val : V) (prev : FrameBounds) : ℕ :=
  match hintBegin sense fromStart value orderBegin orderEnd val prev with
  | .done row => row
  | .search first =>
    match hintEnd sense fromStart value orderBegin orderEnd val prev with
    | .done row => row
    | .search last =>
      if fromStart then lowerBound sense value first last val else upperBound sense value first last val

/-- The value is behind the current value of a preceding range, or before that of a following one. -/
def outOfRange (sense : OrderType) (value : ℕ → V) (orderBegin orderEnd : ℕ) (preceding : Bool) (val : V) : Bool :=
  if preceding then comp sense (value (orderEnd - 1)) val else comp sense val (value orderBegin)

/-- `FindTypedRangeBound` -/
def findTypedRangeBound (sense : OrderType) (fromStart : Bool) (value : ℕ → V)
    (orderBegin orderEnd : ℕ) (preceding : Bool) (val : V) (prev : FrameBounds) :
    Except BoundsError ℕ :=
  if outOfRange sense value orderBegin orderEnd preceding val then
    .error (.outOfRange (if preceding then "Invalid RANGE PRECEDING value"
      else "Invalid RANGE FOLLOWING value"))
  else .ok (searchRange sense fromStart value orderBegin orderEnd val prev)

/-- `FindOrderedRangeBound`: the order is that of the first ordering of the expression. -/
def findOrderedRangeBound (fromStart : Bool) (orderBegin orderEnd : ℕ) (preceding : Bool) (val : V)
    (prev : FrameBounds) : Except BoundsError ℕ :=
  match g.wexpr.orders.head? with
  | some sense =>
    findTypedRangeBound sense fromStart g.range.getCell orderBegin orderEnd preceding val prev
  | none => .error (.internal "Unsupported ORDER BY sense for RANGE")

/-- The hints of a loop over the rows: the partition of the last row, and its bound. -/
structure PrevBound where
  partition : ℕ
  bound : ℕ

/-- The start of a range frame, which is searched from `orderBegin` to `orderEnd`. -/
def rangeBeginCell (boundary : WindowInputExpression V) (b : BoundsColumns) (preceding : Bool)
    (orderBegin orderEnd : ℕ → ℕ) (i : ℕ) (prev : PrevBound) : Except BoundsError (PrevBound × ℕ) :=
  if boundary.cellIsNull i then .ok (prev, b .peerBegin i)
  else do
    let start := if b .partitionBegin i = prev.partition then prev.bound else b .validBegin i
    let windowStart ← g.findOrderedRangeBound true (orderBegin i) (orderEnd i) preceding
      (boundary.getCell i) ⟨start, b .validEnd i⟩
    return (⟨b .partitionBegin i, windowStart⟩, windowStart)

/-- The end of a range frame, between `orderBegin` and `orderEnd`. When the partition changes, the rows are valid up
    to `resetEnd`. -/
def rangeEndCell (boundary : WindowInputExpression V) (b : BoundsColumns) (preceding : Bool)
    (orderBegin orderEnd resetEnd : ℕ → ℕ) (i : ℕ) (prev : PrevBound) :
    Except BoundsError (PrevBound × ℕ) :=
  if boundary.cellIsNull i then .ok (prev, b .peerEnd i)
  else do
    let stop := if b .partitionBegin i = prev.partition then prev.bound else resetEnd i
    let windowEnd ← g.findOrderedRangeBound false (orderBegin i) (orderEnd i) preceding
      (boundary.getCell i) ⟨b .validBegin i, stop⟩
    return (⟨b .partitionBegin i, windowEnd⟩, windowEnd)

/-! ## Frames -/

variable (call : BoundsCall V)

/-- Cells that may fail are stored in a column, which is then clamped to the partitions. -/
def storeFrame {σ : Type} (b : BoundsColumns) (bound : BoundsColumn)
    (cells : Except BoundsError (σ × List ℕ)) : Except BoundsError BoundsColumns := do
  let r ← cells
  return (b.store bound r.2).clampFrame call.count bound

/-- `FrameBegin` -/
def frameBegin (b : BoundsColumns) : Except BoundsError BoundsColumns := let row := fun i => call.rowIdx + i
  let boundary := call.boundaryStart
  match g.wexpr.start with
  | .unboundedPreceding => .ok (b.reference .frameBegin .partitionBegin)
  | .currentRowRows => .ok ((b.fill call.count .frameBegin row).clampFrame call.count .frameBegin)
  | .currentRowRange | .currentRowGroups =>
    .ok ((b.clampFrame call.count .peerBegin).reference .frameBegin .peerBegin)
  | .exprPrecedingRows =>
    .ok ((b.fill call.count .frameBegin fun i =>
      rowsBound (trySubtract (int64 (row i)) (boundary.getInt64 i)) (b .partitionBegin i)).clampFrame
        call.count .frameBegin)
  | .exprFollowingRows =>
    .ok ((b.fill call.count .frameBegin fun i =>
      rowsBound (tryAdd (int64 (row i)) (boundary.getInt64 i)) (b .partitionBegin i)).clampFrame
        call.count .frameBegin)
  | .exprPrecedingRange =>
    storeFrame call b .frameBegin (tryCells
      (g.rangeBeginCell boundary b true (b .validBegin) (row · + 1)) call.count 0
      ⟨b .partitionBegin 0, b .validBegin 0⟩)
  | .exprFollowingRange =>
    storeFrame call b .frameBegin (tryCells (g.rangeBeginCell boundary b false row (b .validEnd)) call.count 0
      ⟨b .partitionBegin 0, b .validBegin 0⟩)
  | .exprPrecedingGroups =>
    storeFrame call b .frameBegin (tryCells (fun i _ =>
      groupsBound boundary i (b .peerBegin i) "Invalid GROUPS PRECEDING value" fun n =>
        (g.orderMask.findPrevStart (b .partitionBegin i) (b .peerBegin i) n).1) call.count 0 ())
  | .exprFollowingGroups =>
    storeFrame call b .frameBegin (tryCells (fun i _ =>
      groupsBound boundary i (b .peerBegin i) "Invalid GROUPS FOLLOWING value" fun n =>
        (g.orderMask.findNextStart (b .peerBegin i + 1) (b .partitionEnd i) n).1) call.count 0 ())
  | .unboundedFollowing | .invalid => .error (.internal "Unsupported window start boundary")

/-- `FrameEnd` -/
def frameEnd (s : WindowBoundariesState) (b : BoundsColumns) : Except BoundsError BoundsColumns :=
  let row := fun i => call.rowIdx + i
  let boundary := call.boundaryEnd
  match g.wexpr.stop with
  | .currentRowRows =>
    .ok ((b.fill call.count .frameEnd (row · + 1)).clampFrame call.count .frameEnd)
  | .currentRowRange | .currentRowGroups =>
    .ok ((b.clampFrame call.count .peerEnd).reference .frameEnd .peerEnd)
  | .unboundedFollowing => .ok (b.reference .frameEnd .partitionEnd)
  | .exprPrecedingRows =>
    .ok ((b.fill call.count .frameEnd fun i =>
      rowsBound (trySubtract (int64 (row i + 1)) (boundary.getInt64 i)) (b .partitionEnd i)).clampFrame
        call.count .frameEnd)
  | .exprFollowingRows =>
    .ok ((b.fill call.count .frameEnd fun i =>
      rowsBound (tryAdd (int64 (row i + 1)) (boundary.getInt64 i)) (b .partitionEnd i)).clampFrame
        call.count .frameEnd)
  | .exprPrecedingRange =>
    -- the hint is reset to the carried end, which is that of the last row of the chunk
    storeFrame call b .frameEnd (tryCells
      (g.rangeEndCell boundary b true (b .validBegin) (row · + 1) fun _ => s.validEnd) call.count 0
      ⟨b .partitionBegin 0, b .validEnd 0⟩)
  | .exprFollowingRange =>
    storeFrame call b .frameEnd (tryCells
      (g.rangeEndCell boundary b false row (b .validEnd) (b .validEnd)) call.count 0
      ⟨b .partitionBegin 0, b .validEnd 0⟩)
  | .exprPrecedingGroups =>
    storeFrame call b .frameEnd (tryCells (fun i _ =>
      groupsBound boundary i (b .peerEnd i) "Invalid GROUPS PRECEDING value" fun n =>
        (g.orderMask.findPrevStart (b .partitionBegin i) (b .peerEnd i) n).1) call.count 0 ())
  | .exprFollowingGroups =>
    storeFrame call b .frameEnd (tryCells (fun i _ =>
      groupsBound boundary i (b .peerEnd i) "Invalid GROUPS FOLLOWING value" fun n =>
        (g.orderMask.findNextStart (b .peerEnd i + 1) (b .partitionEnd i) n).1) call.count 0 ())
  | .unboundedPreceding | .invalid => .error (.internal "Unsupported window end boundary")

end Range

/-! ## Bounds -/

section Bounds

variable (call : BoundsCall V)

/-- The part of `Bounds` before the frames. -/
def rowBounds (s : WindowBoundariesState) (b : BoundsColumns) : WindowBoundariesState × BoundsColumns :=
  let isJump : Bool := s.nextPos ≠ call.rowIdx
  let p := ({ s with nextPos := call.rowIdx }, b)
  let p := g.whenRequired .partitionBegin (g.partitionBegin call isJump) p
  let p := g.whenRequired .partitionEnd (g.partitionEnd call isJump) p
  let p := g.whenRequired .peerBegin (g.peerBegin call isJump) p
  let p := g.whenRequired .peerEnd (g.peerEnd call) p
  let p := g.whenRequired .validBegin (g.validBegin call isJump) p
  g.whenRequired .validEnd (g.validEnd call isJump) p

/-- `Bounds`, with what the columns of the chunk have before. -/
def bounds [LinearOrder V] (s : WindowBoundariesState) (b : BoundsColumns) :
    Except BoundsError (WindowBoundariesState × BoundsColumns) := do
  let p := g.rowBounds call s b
  let b ← g.whenRequired .frameEnd (· >>= g.frameEnd call p.1)
    (g.whenRequired .frameBegin (· >>= g.frameBegin call) (.ok p.2))
  return ({ p.1 with nextPos := p.1.nextPos + call.count }, b)

end Bounds

end WindowBoundaries

end WfOpt

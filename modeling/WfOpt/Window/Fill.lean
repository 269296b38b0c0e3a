import WfOpt.Window.LeadLag
import WfOpt.Window.TokenTree
import WfOpt.Window.ValueTree

/-!
# fill()

The missing values of a column are interpolated (`WindowFillExecutor`). A missing row is filled from two rows with
usable values, before and behind it or on the same side, or from a single one (`FillSearch.search`), in the order of
the partition or of the argument.

In the order of the partition, the row before is kept from one missing row to the next. If nothing is found, the
rest of the partition is skipped, by jumping to its last row. The indices at which bounds are read are recorded.
-/

namespace WfOpt

/-- `FillValueFunction`: a cell is finite. -/
def fillValueFunction {α : Type*} (isFinite : α → Bool) (cell : ℕ → Option α) (row : ℕ) : Bool :=
  (cell row).any isFinite

/-! ## Searches -/

/-- Where a row is searched: positions with a usable value or sort value, from `lo` to `stop`. -/
structure FillSearch where
  order : ℕ → Bool
  value : ℕ → Bool
  lo : ℕ
  stop : ℕ

namespace FillSearch

variable (f : FillSearch)

/-- The loops that scan backwards: from the position before the given one. -/
def scanBackwards : ℕ → Option ℕ
  | 0 => none
  | n + 1 =>
    if f.lo < n + 1 then if f.order n then if f.value n then some n else scanBackwards n else none else none

/-- The loops that scan forwards, with the number of positions that are left. -/
def scanFrom : (left n : ℕ) → Option ℕ
  | 0, _ => none
  | left + 1, n => if f.order n then if f.value n then some n else scanFrom left (n + 1) else none

/-- A loop that scans forwards. -/
def scanForwards (n : ℕ) : Option ℕ := f.scanFrom (f.stop - n) n

/-- The previous valid position, or, if there is nothing behind us, one from scanning forward. -/
def previous (own : ℕ) : Option ℕ := (f.scanBackwards own).or (f.scanForwards (own + 1))

/-- The next valid position. If there is nothing after, it is searched before, and the ordering is restored. -/
def pair (prev : ℕ) : ℕ × Option ℕ := match f.scanForwards (prev + 1) with
  | some next => (prev, some next)
  | none =>
    match f.scanBackwards prev with
    | some next => (next, some prev)
    | none => (prev, none)

end FillSearch

/-! ## Columns -/

/-- The bounds of a row that are used. -/
structure FillBounds where
  partitionBegin : ℕ
  partitionEnd : ℕ
  validBegin : ℕ
  validEnd : ℕ

/-- The argument, in chunks, and the sort column of a group. In a partition, the valid range has the rows with a sort
    value, sorted, with those that are not finite at the ends. -/
structure FillColumns (V K : Type*) where
  chunks : List (List (Option V))
  valueFinite : V → Bool
  orderCell : ℕ → Option K
  orderFinite : K → Bool
  bounds : ℕ → FillBounds
  partitionBegin_le : ∀ r < chunks.flatten.length, (bounds r).partitionBegin ≤ r
  lt_partitionEnd : ∀ r < chunks.flatten.length, r < (bounds r).partitionEnd
  partitionEnd_le : ∀ r < chunks.flatten.length, (bounds r).partitionEnd ≤ chunks.flatten.length
  bounds_eq : ∀ r < chunks.flatten.length, ∀ s, (bounds r).partitionBegin ≤ s → s < (bounds r).partitionEnd →
    bounds s = bounds r
  valid_iff : ∀ r < chunks.flatten.length, ∀ s, (bounds r).validBegin ≤ s ∧ s < (bounds r).validEnd ↔
    ((bounds r).partitionBegin ≤ s ∧ s < (bounds r).partitionEnd) ∧ (orderCell s).isSome = true
  order_between : ∀ r < chunks.flatten.length, ∀ a b c, (bounds r).partitionBegin ≤ a → a ≤ b → b ≤ c →
    c < (bounds r).partitionEnd → fillValueFunction orderFinite orderCell a = true →
    fillValueFunction orderFinite orderCell c = true → fillValueFunction orderFinite orderCell b = true

/-- The trees of a secondary sort, with its column. -/
structure SecondarySort (K : Type*) where
  rowTree : MergeSortTree ℕ
  valueTree : MergeSortTree ℕ
  orderCell : ℕ → Option K
  orderFinite : K → Bool

namespace FillColumns

variable {V K : Type*} (T : FillColumns V K)

/-- The number of rows of the group. -/
def count : ℕ := T.chunks.flatten.length

/-- The cell of a row. -/
def cell (row : ℕ) : Option V := T.chunks.flatten.getD row none

/-- `value_func`: the row has a usable value. -/
def value (row : ℕ) : Bool := fillValueFunction T.valueFinite T.cell row

/-- `order_value_func`: the row has a usable sort value. -/
def order (row : ℕ) : Bool := fillValueFunction T.orderFinite T.orderCell row

/-- A chunk of rows, with the columns of their bounds, and the validity of their cells. -/
structure Chunk where
  rowIdx : ℕ
  count : ℕ
  bounds : ℕ → FillBounds
  validity : ValidityMask
  le_count : rowIdx + count ≤ T.count
  bounds_eq : ∀ i < count, bounds i = T.bounds (rowIdx + i)
  validity_eq : ∀ i < count, validity.rowIsValid i = (T.cell (rowIdx + i)).isSome

/-! ## Evaluation -/

/-- A row of the result: a cell, or what is interpolated between two rows. -/
inductive Filled (V : Type*)
  | cell (value : Option V)
  | interpolated (lo hi : ℕ)
  deriving DecidableEq

/-- `WindowFillCopy`, which goes on at each chunk of the source, and copies a row each time. -/
def windowFillCopy (count : ℕ) : (fuel rowIdx targetOffset : ℕ) → (ℕ → Filled V) → ℕ → Filled V
  | 0, _, _, result => result
  | fuel + 1, rowIdx, targetOffset, result =>
    if targetOffset < count then
      let source := seek T.chunks rowIdx
      let copied := min (source.1.length - source.2) (count - targetOffset)
      windowFillCopy count fuel (rowIdx + copied) (targetOffset + copied) fun j =>
        if targetOffset ≤ j ∧ j < targetOffset + copied then
          .cell (source.1.getD (source.2 + (j - targetOffset)) none)
        else result j
    else result

/-- The variables of the loops, with the indices at which the bounds have been read. -/
structure Filling (V : Type*) where
  i : ℕ
  rowIdx : ℕ
  prevValid : Option ℕ
  prevPartition : Option ℕ
  result : ℕ → Filled V
  reads : List ℕ

/-- A row is a copy of the only valid row, or two values are interpolated. -/
def write (s : Filling V) (prevValid : ℕ) (nextValid : Option ℕ) : Filling V := { s with
    result := Function.update s.result s.i
      (match nextValid with
        | none => .cell (T.cell prevValid)
        | some nextValid => .interpolated prevValid nextValid) }

variable {T}

namespace Chunk

variable (chunk : T.Chunk)

/-- The loop goes on with the next row. -/
def next (s : Filling V) : Filling V := { s with i := s.i + 1, rowIdx := s.rowIdx + 1 }

/-- Without valid values the loop skips to the next partition. The end is read again at an index that has been
    advanced. -/
def skip (s : Filling V) : Filling V := let i := s.i + ((chunk.bounds s.i).partitionEnd - s.rowIdx - 1)
  next { s with
    i := i
    rowIdx := (chunk.bounds i).partitionEnd - 1
    reads := s.reads ++ [i] }

/-- The rows of the chunk's partitions in their own order. -/
def partitionSearch (i : ℕ) : FillSearch :=
  ⟨T.order, T.value, (chunk.bounds i).validBegin, (chunk.bounds i).validEnd⟩

/-- The loop changes partitions. -/
def enter (s : Filling V) : Filling V := let s := { s with reads := s.reads ++ [s.i] }
  if s.prevPartition = some (chunk.bounds s.i).partitionBegin then s
  else
    { s with
      prevPartition := some (chunk.bounds s.i).partitionBegin
      prevValid := none }

/-- A missing row, in the order of the partition. -/
def fillMissing (s : Filling V) : Filling V :=
  match s.prevValid.or ((chunk.partitionSearch s.i).previous s.rowIdx) with
  | none => chunk.skip s
  | some prev =>
    let p := (chunk.partitionSearch s.i).pair prev
    next { T.write s p.1 p.2 with prevValid := some p.1 }

/-- A row, in the order of the partition. -/
def fillRow (s : Filling V) : Filling V := let s := chunk.enter s
  let bounds := chunk.bounds s.i
  if s.rowIdx < bounds.validBegin ∨ bounds.validEnd ≤ s.rowIdx ∨ T.order s.rowIdx = false then next s
  else if chunk.validity.rowIsValid s.i then
    next { s with prevValid := if T.value s.rowIdx then some s.rowIdx else s.prevValid }
  else chunk.fillMissing s

section Secondary

variable (sort : SecondarySort K)

/-- The row at a position of the partition in the secondary order. -/
def selectNth (bounds : FillBounds) (n : ℕ) : ℕ :=
  match indexSelectNth sort.valueTree [⟨bounds.partitionBegin, bounds.partitionEnd⟩] n with
  | some nth => nth.1
  | none => 0

/-- The rows of a partition in the secondary order. -/
def secondarySearch (bounds : FillBounds) : FillSearch where
  order n := fillValueFunction sort.orderFinite sort.orderCell (selectNth sort bounds n)
  value n := T.value (selectNth sort bounds n)
  lo := 0
  stop := bounds.partitionEnd - bounds.partitionBegin

/-- The own row number in the secondary sort. -/
def ownRow (bounds : FillBounds) (row : ℕ) : ℕ :=
  TokenTree.rank sort.rowTree bounds.partitionBegin bounds.partitionEnd row - 1

/-- A missing row, in the secondary order. The scan order is not the sort order, and nothing is kept. -/
def fillMissingSorted (s : Filling V) : Filling V := let bounds := chunk.bounds s.i
  let f := secondarySearch (T := T) sort bounds
  match f.previous (ownRow sort bounds s.rowIdx) with
  | none => chunk.skip s
  | some prev =>
    let p := f.pair prev
    next (T.write s (selectNth sort bounds p.1) (p.2.map (selectNth sort bounds)))

/-- A row, in the secondary order. -/
def fillRowSorted (s : Filling V) : Filling V := if chunk.validity.rowIsValid s.i then next s
  else
    let s := { s with reads := s.reads ++ [s.i] }
    if fillValueFunction sort.orderFinite sort.orderCell s.rowIdx then chunk.fillMissingSorted sort s else next s

end Secondary

/-- A loop over the rows of the chunk. It passes a row each time. -/
def loop (step : Filling V → Filling V) : (fuel : ℕ) → Filling V → Filling V
  | 0, s => s
  | fuel + 1, s => if s.i < chunk.count then loop step fuel (step s) else s

/-- All values have been copied. -/
def start (result : ℕ → Filled V) : Filling V where
  i := 0
  rowIdx := chunk.rowIdx
  prevValid := none
  prevPartition := none
  result := T.windowFillCopy chunk.count chunk.count chunk.rowIdx 0 result
  reads := []

/-- `EvaluateInternal`, with what the result vector has had before. -/
def evaluateInternal (secondary : Option (SecondarySort K)) (result : ℕ → Filled V) : Filling V :=
  if chunk.validity.validityMask.isNone then chunk.start result
  else
    match secondary with
    | some sort => chunk.loop (chunk.fillRowSorted sort) chunk.count (chunk.start result)
    | none => chunk.loop chunk.fillRow chunk.count (chunk.start result)

end Chunk

/-! ## What is to be filled -/

variable (T)

/-- A row that others can be filled from. -/
def usable (row : ℕ) : Bool := T.order row && T.value row

/-- What a missing row is filled from: the usable rows before it, the last one first, and those behind it. -/
def fillFrom : (before behind : List ℕ) → Filled V
  | lo :: _, hi :: _ => .interpolated lo hi
  | hi :: lo :: _, [] => .interpolated lo hi
  | [], lo :: hi :: _ => .interpolated lo hi
  | [row], [] => .cell (T.cell row)
  | [], [row] => .cell (T.cell row)
  | [], [] => .cell none

/-- What is right for a row. -/
def expected (row : ℕ) : Filled V := if (T.cell row).isNone && T.order row then
    T.fillFrom (marks T.usable (T.bounds row).partitionBegin row).reverse
      (marks T.usable (row + 1) (T.bounds row).partitionEnd)
  else .cell (T.cell row)

end FillColumns

end WfOpt

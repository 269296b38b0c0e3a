import WfOpt.Window.Mask
import WfOpt.Window.MergeSortTree
import WfOpt.Window.SegmentTree

/-!
# Aggregates of distinct values

A `DISTINCT` aggregate over a frame (`WindowDistinctAggregator`) has one row for every value of its arguments. Every
row is linked to the previous row with the same arguments. A merge sort tree over these links finds the rows of a
frame that have no link into it, and every run of the tree has the aggregates of its first elements.
-/

namespace WfOpt

open List

/-- What a `DISTINCT` aggregate is computed from: the rows of a group, in chunks, with arguments and filter, and the
    state of a single row. -/
structure DistinctAggregator (V σ : Type*) where
  collection : ChunkedRows
  arg : ℕ → ℕ → V
  keyCount : ℕ
  filterMask : Option (ℕ → Bool)
  rowState : List V → σ

namespace DistinctAggregator

variable {V σ : Type*} [LinearOrder V] (T : DistinctAggregator V σ)

/-- The arguments of a row. -/
def args (row : ℕ) : List V := (range T.keyCount).map (T.arg row)

/-- The row passes the filter. -/
def included (row : ℕ) : Bool := match T.filterMask with
  | none => true
  | some mask => mask row

/-! ## Links -/

/-- The order of the sort: by the arguments, with the index of the row as a tie breaker. -/
def sortsBefore (i j : ℕ) : Bool := T.args i < T.args j ∨ (T.args i = T.args j ∧ i ≤ j)

/-- The rows that pass the filter (`Sink`), sorted: the last column of `sorted`. -/
def sortedRows : List ℕ := ((range T.collection.count).filter T.included).mergeSort T.sortsBefore

/-- `input_idx`, for a position of the sorted rows. -/
def inputIdx (q : ℕ) : ℕ := T.sortedRows.getD q 0

/-- The collection of the sorted rows, cut into chunks. -/
def sorted (chunks : ChunkedRows) : MaskedRows V where
  toChunkedRows := chunks
  value q c := T.arg (T.inputIdx q) c
  partitionCount := T.keyCount
  orderColumns := []
  partitionCount_le _ ho := absurd ho not_mem_nil
  sort := true

variable (chunks : ChunkedRows)

/-- The delta scan in `Sorted`: the rows it links, each with the first component of its tuple in `prev_idcs`, and
    `prev_i`. -/
def linkCall (prevI : ℕ) (call : DeltaCall) : List (ℕ × ℕ) × ℕ :=
  let r := distinctFrom ((T.sorted chunks).callDiffers call) (range T.keyCount)
    (range call.count)
  let matching := if r.1 = [] then range call.count else r.2
  let count := min call.prev.length call.curr.length
  let nmatch := count - r.1.length
  let input := fun scanIdx => T.inputIdx (call.curr.getD scanIdx 0)
  ((matching.take nmatch).map (fun scanIdx =>
      (input scanIdx, (if scanIdx ≠ 0 then input (scanIdx - 1) else prevI) + 1)) ++
    r.1.map (fun scanIdx => (input scanIdx, 0)), input (count - 1))

/-- The operation of the delta scan, for all of its calls. -/
def linkCalls : ℕ → List DeltaCall → List (ℕ × ℕ)
  | _, [] => []
  | prevI, call :: calls =>
    (T.linkCall chunks prevI call).1 ++ linkCalls (T.linkCall chunks prevI call).2 calls

/-- `block_begin`, of the blocks of chunks the sorted rows are split into. -/
def blockBegin (totalTasks blockIdx : ℕ) : ℕ := blockIdx * chunks.chunks.length / totalTasks

/-- `Sorted`: the links of a block. -/
def linkBlock (totalTasks blockIdx : ℕ) : List (ℕ × ℕ) := let first := blockBegin chunks totalTasks blockIdx
  let last := blockBegin chunks totalTasks (blockIdx + 1)
  if chunks.chunks.length = 0 then []
  else if first = 0 then
    (T.inputIdx 0, 0) :: T.linkCalls chunks (T.inputIdx 0) ((T.sorted chunks).windowDeltaScanner first last)
  else
    T.linkCalls chunks (T.inputIdx (chunks.position (first - 1) + chunks.chunkSize (first - 1) - 1))
      ((T.sorted chunks).windowDeltaScanner first last)

/-- The links, written one by one. A row that is not written points to itself. -/
def applyLinks (writes : List (ℕ × ℕ)) : ℕ → ℕ :=
  writes.foldl (fun links w => Function.update links w.1 w.2) fun i => i + 1

/-- `prev_idcs`. -/
def prevIdcs (writes : List (ℕ × ℕ)) : List (ℕ ×ₗ ℕ) :=
  (range T.collection.count).map fun i => toLex (applyLinks writes i, i)

/-! ## The tree -/

/-- `merge_sort_tree`: the first components of the elements of `zipped_tree`, with its cascading
    pointers. -/
def linkTree (zipped : MergeSortTree (ℕ ×ₗ ℕ)) : MergeSortTree ℕ where
  count := zipped.count
  size := zipped.size
  elements level i := (ofLex (zipped.elements level i)).1
  cascades := zipped.cascades

variable [Monoid σ]

/-- A state is multiplied. -/
def mulState (states : ℕ → σ) (target : ℕ) (x : σ) : ℕ → σ := fun i => if i = target then states i * x else states i

/-- The variables of `BuildRun`: the states, the cursor, and what is queued, the rows to update a state with, and
    pairs to combine. -/
structure StateBuild (σ : Type*) where
  states : ℕ → σ
  cursor : WindowCursor
  updates : List (ℕ × ℕ)
  combines : List (ℕ × ℕ)

/-- What is queued is applied, the updates first. -/
def flush (s : StateBuild σ) : StateBuild σ := let updated := s.updates.foldl (fun states u => mulState states u.1
    (T.rowState (T.args (s.cursor.currentRowIndex T.collection + u.2)))) s.states
  { s with
    states := s.combines.foldl (fun states c => mulState states c.2 (states c.1)) updated
    updates := []
    combines := [] }

/-- The cursor is moved to a row. If it is in another chunk, what is queued is applied before. -/
def seekRow (s : StateBuild σ) (row : ℕ) : StateBuild σ := if s.cursor.rowIsVisible T.collection row then s
  else { T.flush s with cursor := s.cursor.seek T.collection row }

/-- The update of a state with a row is queued. -/
def pushUpdate (s : StateBuild σ) (target row : ℕ) : StateBuild σ := let s := T.seekRow s row
  { s with updates := s.updates ++ [(target, s.cursor.rowOffset T.collection row)] }

/-- The combination of a state with the one before is queued, if there is one. -/
def pushCombine (s : StateBuild σ) (prevState : Option ℕ) (target : ℕ) : StateBuild σ := match prevState with
  | none => s
  | some source => { s with combines := s.combines ++ [(source, target)] }

/-- The queues are flushed when one is full. -/
def flushFull (s : StateBuild σ) : StateBuild σ :=
  if standardVectorSize ≤ max s.combines.length s.updates.length then T.flush s else s

/-- The state of the element `j` of a run that starts at `i`. -/
def buildState (zipped : MergeSortTree (ℕ ×ₗ ℕ)) (level i : ℕ) (s : StateBuild σ) (j : ℕ) : StateBuild σ :=
  let element := ofLex (zipped.elements level j)
  let target := level * zipped.count + j
  let s := if element.1 < i + 1 then T.pushUpdate s target element.2 else s
  T.flushFull (pushCombine s (if j = i then none else some (target - 1)) target)

/-- `BuildRun`, for the states. -/
def buildStates (zipped : MergeSortTree (ℕ ×ₗ ℕ)) (level : ℕ) (s : StateBuild σ) (run : ℕ) : StateBuild σ :=
  let i := run * MergeSortTree.levelWidth level
  let limit := min zipped.count (i + MergeSortTree.levelWidth level)
  T.flush ((range' i (limit - i)).foldl (T.buildState zipped level i) s)

/-- `Build`, by a single thread. All states start out as the unit. -/
def buildLevels (zipped : MergeSortTree (ℕ ×ₗ ℕ)) : ℕ → σ := ((range zipped.size).foldl (fun s level =>
    (range ((zipped.count + MergeSortTree.levelWidth level - 1) /
      MergeSortTree.levelWidth level)).foldl (T.buildStates zipped level) s)
    ⟨fun _ => 1, ⟨0⟩, [], []⟩).states

/-! ## Evaluating frames -/

/-- The states of the frames, and the queue of pairs of a frame and a state of the tree. -/
structure FrameStates (σ : Type*) where
  frames : ℕ → σ
  queue : List (ℕ × ℕ)

/-- `FlushStates`. -/
def flushStates (levels : ℕ → σ) (s : FrameStates σ) : FrameStates σ :=
  { frames := s.queue.foldl (fun frames e => mulState frames e.1 (levels e.2)) s.frames
    queue := [] }

/-- The aggregate of a run up to `run_pos` is queued for `AggregateLowerBound`. The states of a level are behind those
    below. -/
def aggregateRun (levels : ℕ → σ) (count rid : ℕ) (s : FrameStates σ)
    (c : MergeSortTree.AggregateCall) : FrameStates σ :=
  if c.runPos ≠ c.runBegin then
    let s := { s with queue := s.queue ++ [(rid, c.level * count + c.runPos - 1)] }
    if standardVectorSize ≤ s.queue.length then flushStates levels s else s
  else s

/-- `Evaluate`: the states of frames, given by their bounds, before they are finalised. -/
def evaluate (tree : MergeSortTree ℕ) (levels : ℕ → σ) (frames : List (ℕ × ℕ)) : ℕ → σ :=
  (flushStates levels ((range frames.length).foldl (fun s rid =>
    let frame := frames.getD rid (0, 0)
    (tree.aggregateLowerBound (frame.1 + 1) frame.1 frame.2).foldl
      (aggregateRun levels tree.count rid) s) ⟨fun _ => 1, []⟩)).frames

end DistinctAggregator

end WfOpt

import WfOpt.Common.ValidityMask
import WfOpt.Window.SegmentTree

/-!
# Constant aggregates

If the frame of every row is its partition, an aggregate has one value for each partition
(`WindowConstantAggregator`). The threads sink chunks into states of their own, one for each partition
(`ConstantAggregator.sink`), which are combined one thread after the other (`ConstantAggregator.finalize`). Each
thread goes forward through the partitions to evaluate (`ConstantAggregator.evaluate`).
-/

namespace WfOpt

open List Function

/-- An aggregate function, rows in chunks, and the bits of the rows that start a partition and of a filter. -/
structure ConstantAggregator (ρ σ τ : Type*) [CommMonoid σ] where
  aggr : AggregateFunction ρ σ τ
  collection : ChunkedRows
  row : ℕ → ρ
  filterMask : Option (ℕ → Bool)
  partitionMask : ValidityMask
  start_zero : partitionMask.rowIsValid 0 = true

namespace ConstantAggregator

variable {ρ σ τ : Type*} [CommMonoid σ] (T : ConstantAggregator ρ σ τ)

/-- The rows of the group. -/
def groupCount : ℕ := T.collection.count

/-! ## Partitions -/

/-- The rows of a block that start a partition, from the bit `shift` on, with the row behind them. -/
def locateInBlock (block : BitVec 64) : (bits shift start : ℕ) → List ℕ × ℕ
  | 0, _, start => ([], start)
  | bits + 1, shift, start =>
    if start < T.groupCount then
      let r := locateInBlock block bits (shift + 1) (start + 1)
      (if block.getLsbD shift then start :: r.1 else r.1, r.2)
    else ([], start)

/-- The loop over the blocks, of which blank ones are skipped. It passes a row each time. -/
def locateInBlocks : (fuel start : ℕ) → List ℕ
  | 0, _ => []
  | fuel + 1, start =>
    if start < T.groupCount then
      let block := T.partitionMask.getValidityEntry (start / 64)
      let shift := start % 64
      if block = 0 ∧ shift = 0 then locateInBlocks fuel (start + 64)
      else
        let r := T.locateInBlock block (64 - shift) shift start
        r.1 ++ locateInBlocks fuel r.2
    else []

/-- The starts of the partitions. Without a mask, there is one partition. -/
def partitionStarts : List ℕ := if T.partitionMask.validityMask.isNone then [0] else T.locateInBlocks T.groupCount 0

/-- `partition_offsets`: the starts and the final guard. -/
def partitionOffsets : List ℕ := T.partitionStarts ++ [T.groupCount]

/-- `partition_offsets[p]` -/
def offset (p : ℕ) : ℕ := T.partitionOffsets.getD p 0

/-! ## Sinking -/

/-- The variables of the loop in `Sink`. The selection is what is left of the rows that pass the filter. -/
structure Sinking (σ : Type*) where
  row : ℕ
  begin : ℕ
  partition : ℕ
  partitionEnd : ℕ
  sel : List ℕ
  states : ℕ → σ

/-- Rows of a chunk are aggregated into the state of a partition. -/
def updateRows (chunkBegin : ℕ) (states : ℕ → σ) (partition : ℕ) (rows : List ℕ) : ℕ → σ := update states partition
    (states partition * (rows.map fun i => T.aggr.rowState (T.row (chunkBegin + i))).prod)

/-- The loop in `Sink`: the rows up to the end of the partition or of the chunk. -/
def sinkPartition (chunkBegin chunkEnd : ℕ) (s : Sinking σ) : Sinking σ :=
  let partition := if s.row = s.partitionEnd then s.partition + 1 else s.partition
  let partitionEnd := min (if s.row = s.partitionEnd then T.offset (partition + 1) else s.partitionEnd) chunkEnd
  let stop := partitionEnd - chunkBegin
  -- the first row in `[begin, end)`, and the first one behind it
  let rest := s.sel.dropWhile fun idx => idx < s.begin
  let rows := if T.filterMask.isSome then rest.takeWhile fun idx => idx < stop
    else range' s.begin (stop - s.begin)
  { row := s.row + (stop - s.begin)
    begin := stop
    partition := partition
    partitionEnd := partitionEnd
    sel := rest.dropWhile fun idx => idx < stop
    states := T.updateRows chunkBegin s.states partition rows }

/-- The loop in `Sink`, which passes a row each time. -/
def sinkPartitions (chunkBegin chunkEnd : ℕ) : (fuel : ℕ) → Sinking σ → Sinking σ
  | 0, s => s
  | fuel + 1, s =>
    if s.row < chunkEnd then sinkPartitions chunkBegin chunkEnd fuel (T.sinkPartition chunkBegin chunkEnd s) else s

/-- Whether a row passes the filter. -/
def passes (row : ℕ) : Bool := (T.filterMask.getD fun _ => true) row

/-- `filter_sel`: the rows of a chunk that pass the filter. -/
def filterSel (chunkBegin size : ℕ) : List ℕ := (range size).filter fun i => T.passes (chunkBegin + i)

/-- `std::upper_bound` in the offsets. -/
def upperBound (row : ℕ) : ℕ := T.partitionOffsets.findIdx fun offset => row < offset

/-- `WindowConstantAggregatorLocalState::Sink` of the chunk with the given rows. -/
def sink (states : ℕ → σ) (chunkBegin size : ℕ) : ℕ → σ := let partition := T.upperBound chunkBegin - 1
  (T.sinkPartitions chunkBegin (chunkBegin + size) size
    ⟨chunkBegin, 0, partition, T.offset (partition + 1), T.filterSel chunkBegin size, states⟩).states

/-- The states of a thread that has sunk some of the chunks. -/
def sinkChunks (chunks : List ℕ) : ℕ → σ :=
  chunks.foldl (fun states c => T.sink states (T.collection.position c) (T.collection.chunkSize c)) fun _ => 1

/-! ## Finalizing -/

/-- `WindowConstantAggregatorGlobalState`, with how often the results have been finalized. -/
structure Global (σ τ : Type*) where
  states : ℕ → σ
  locals : ℕ
  results : Option (ℕ → τ)
  finalizations : ℕ

/-- The global state when all local states have been made. -/
def Global.start (locals : ℕ) : Global σ τ := ⟨fun _ => 1, locals, none, 0⟩

/-- `Finalize`, which holds the lock, of a thread with the given states. -/
def finalize (g : Global σ τ) (states : ℕ → σ) : Global σ τ := let combined := fun p => g.states p * states p
  let locals := g.locals - 1
  if locals = 0 then ⟨combined, locals, some fun p => T.aggr.finalize (combined p), g.finalizations + 1⟩
  else ⟨combined, locals, g.results, g.finalizations⟩

/-! ## Evaluating -/

/-- A result vector, of which a row that has not been written has no value. -/
structure ResultVector (τ : Type*) where
  constant : Bool
  data : ℕ → Option τ

/-- The value of a row. -/
def ResultVector.value (v : ResultVector τ) (i : ℕ) : Option τ := if v.constant then v.data 0 else v.data i

/-- `VectorOperations::Copy` of the selected results. -/
def copyResults (results : ℕ → τ) (data : ℕ → Option τ) (sel : ℕ → ℕ) (count targetOffset : ℕ) : ℕ → Option τ :=
  fun i => if targetOffset ≤ i ∧ i < targetOffset + count then some (results (sel (i - targetOffset))) else data i

/-- The variables of `Evaluate`; those of the local state are the partition and the selection. -/
structure Evaluating (τ : Type*) where
  partition : ℕ
  selected : ℕ → ℕ
  matched : ℕ
  targetOffset : ℕ
  data : ℕ → Option τ

/-- The results of the previous partition are flushed. -/
def flush (results : ℕ → τ) (s : Evaluating τ) : Evaluating τ := if s.matched = 0 then s
  else
    { s with
      data := copyResults results s.data s.selected s.matched s.targetOffset
      targetOffset := s.targetOffset + s.matched
      matched := 0 }

/-- The loop that finds the partition of a frame. -/
def findPartition (results : ℕ → τ) (frameBegin : ℕ) : (fuel : ℕ) → Evaluating τ → Evaluating τ
  | 0, s => s
  | fuel + 1, s =>
    if T.offset (s.partition + 1) ≤ frameBegin then
      findPartition results frameBegin fuel { flush results s with partition := s.partition + 1 }
    else s

/-- The loop in `Evaluate`. -/
def evaluateRow (results : ℕ → τ) (s : Evaluating τ) (frameBegin : ℕ) : Evaluating τ :=
  let s := T.findPartition results frameBegin T.partitionOffsets.length s
  { s with
    selected := update s.selected s.matched s.partition
    matched := s.matched + 1 }

/-- The cursor of a thread: `partition` and `matches` of the local state. -/
structure Cursor where
  partition : ℕ
  selected : ℕ → ℕ

/-- `Evaluate` of a chunk of `count` rows, with the bounds column `frameBegin`. -/
def evaluate (results : ℕ → τ) (cursor : Cursor) (frameBegin : ℕ → ℕ) (count : ℕ) : ResultVector τ × Cursor :=
  let s := (range count).foldl (fun s i => T.evaluateRow results s (frameBegin i))
    ⟨cursor.partition, cursor.selected, 0, 0, fun _ => none⟩
  let result := if s.matched = 0 then ⟨false, s.data⟩
    else if s.targetOffset = 0 ∧ s.matched = count then
      ⟨true, copyResults results s.data s.selected 1 s.targetOffset⟩
    else ⟨false, copyResults results s.data s.selected s.matched s.targetOffset⟩
  (result, ⟨s.partition, s.selected⟩)

/-- A chunk that is evaluated: its first row, its number of rows, and the frame begins among its bounds. -/
structure EvaluatedChunk where
  rowIdx : ℕ
  count : ℕ
  frameBegin : ℕ → ℕ

/-- The chunks that a thread evaluates, one after the other. -/
def evaluateChunks (results : ℕ → τ) : Cursor → List EvaluatedChunk → List (ResultVector τ)
  | _, [] => []
  | cursor, chunk :: chunks =>
    let r := T.evaluate results cursor chunk.frameBegin chunk.count
    r.1 :: evaluateChunks results r.2 chunks

/-! ## Threads -/

/-- Threads that share the work: each sinks some of the chunks, and they finalize in some order. -/
structure Threads where
  count : ℕ
  assigned : Fin count → List ℕ
  order : List (Fin count)
  count_pos : 0 < count
  assigned_perm : ((finRange count).flatMap assigned).Perm (range T.collection.chunks.length)
  order_perm : order.Perm (finRange count)

/-- The global state when the first `n` of the threads have finalized. -/
def Threads.finalized {T : ConstantAggregator ρ σ τ} (threads : T.Threads) (n : ℕ) : Global σ τ :=
  (threads.order.take n).foldl (fun g t => T.finalize g (T.sinkChunks (threads.assigned t)))
    (Global.start threads.count)

/-! ## What is to be computed -/

/-- Whether a row starts a partition. -/
def startsPartition (row : ℕ) : Bool :=
  if T.partitionMask.validityMask.isNone then row = 0 else T.partitionMask.rowIsValid row

/-- The start of the partition of a row. -/
def partitionBegin (row : ℕ) : ℕ := lastStart T.startsPartition row

/-- The aggregate of the rows of the partition of a row that pass the filter. -/
def expected (row : ℕ) : τ := T.aggr.finalize ((((range T.groupCount).filter fun r =>
    T.partitionBegin r = T.partitionBegin row && T.passes r).map fun r => T.aggr.rowState (T.row r)).prod)

/-- Chunks as a thread evaluates them: increasing, and of frames that begin with the partition of the row. -/
structure Evaluable (chunks : List EvaluatedChunk) : Prop where
  increasing : chunks.Pairwise fun a b => a.rowIdx + a.count ≤ b.rowIdx
  inGroup : ∀ chunk ∈ chunks, chunk.rowIdx + chunk.count ≤ T.groupCount
  frameBegin : ∀ chunk ∈ chunks, ∀ i < chunk.count, chunk.frameBegin i = T.partitionBegin (chunk.rowIdx + i)

end ConstantAggregator

end WfOpt

import WfOpt.Basic
import WfOpt.Lib.Transition
import WfOpt.Sort.MergePath

/-!
# The sorted run merger

Threads merge sorted runs in parallel (`SortedRunMerger`). Each takes the next merge partition, computes where it
ends in the runs, acquires where it starts, and merges and scans the tuples in between. The start is published by
other threads, or computed. The chunks of tuples that are far enough behind are destroyed.

What happens under a lock is one step of a thread (`Merger.threadStep`), as is every access to an atomic variable,
and every turn of the loop that computes boundaries. The steps can be interleaved in any way (`Merger.Reachable`).
-/

namespace WfOpt

open Finset Function

/-! ## The system -/

/-- `SortedRunMerger`, with the number of threads of the scheduler. -/
structure Merger (κ : Type*) [LinearOrder κ] where
  runs : RunKeys κ
  partitionSize : ℕ
  numThreads : ℕ
  external : Bool
  tuplesPerBlock : ℕ
  partitionSize_pos : 0 < partitionSize

/-- `SortedRunMergePartition`: the run boundaries of a merge partition, and its
    atomic flags. -/
structure MergePartition where
  begins : ℕ → ℕ
  ends : ℕ → ℕ
  beginComputed : Bool
  scanned : Bool

/-- The boundaries a thread has acquired for a merge partition. -/
structure AcquiredBoundaries where
  partition : ℕ
  begins : ℕ → ℕ
  ends : ℕ → ℕ

/-- `SortedRunMergerGlobalState`, with the ranges of chunks destroyed and the boundaries acquired recorded. -/
structure MergerGlobal where
  nextPartitionIdx : ℕ
  partitions : ℕ → MergePartition
  destroyLocked : Bool
  destroyPartitionIdx : ℕ
  destroyed : ℕ → List (ℕ × ℕ)
  acquired : List AcquiredBoundaries

/-- The partition that `ComputePartitionBoundaries` is called for: that of the
    thread, or the one before it. -/
inductive ComputeFor
  | own
  | previous
  deriving DecidableEq, Repr

/-- Where a thread is. -/
inductive MergerTask
  /-- No task. -/
  | finished
  /-- In `ComputePartitionBoundaries`, before the boundaries are copied. -/
  | readBoundaries (c : ComputeFor)
  /-- In the loop over previous partitions. -/
  | findHint (c : ComputeFor) (prev : ℕ)
  /-- In that loop, with a partition found. -/
  | copyHint (c : ComputeFor) (prev : ℕ)
  /-- Before `TemplatedComputePartitionBoundaries`. -/
  | compute (c : ComputeFor)
  /-- In the loop of `TemplatedComputePartitionBoundaries`. -/
  | probe (c : ComputeFor) (path : PathState)
  /-- Before the flag of the next partition is read. -/
  | checkNext (c : ComputeFor)
  /-- Before the begin of the next partition is set. -/
  | publishNext (c : ComputeFor)
  /-- Before the end of the partition is set. -/
  | publishEnd (c : ComputeFor)
  /-- In `AcquirePartitionBoundaries`, before the flag is read. -/
  | acquire
  /-- In `AcquirePartitionBoundaries`, before the boundaries are copied. -/
  | copyBoundaries
  /-- In `MergePartition`. -/
  | merge
  /-- In `ScanPartition`. -/
  | scan
  /-- In `DestroyScannedData`, before the lock is tried. -/
  | tryDestroy
  /-- In `DestroyScannedData`, in the loop over scanned partitions. -/
  | destroyScan (endPartitionIdx : ℕ)
  /-- In `DestroyScannedData`, in the loop over the runs. -/
  | destroyRun (endPartitionIdx run : ℕ)
  /-- Before the partition is marked as scanned. -/
  | setScanned

/-- `SortedRunMergerLocalState`. -/
structure MergerLocal where
  task : MergerTask
  partitionIdx : ℕ
  begins : ℕ → ℕ
  ends : ℕ → ℕ

/-- The partition whose boundaries are computed. -/
def MergerLocal.target (l : MergerLocal) : ComputeFor → ℕ
  | .own => l.partitionIdx
  | .previous => l.partitionIdx - 1

/-- A merge partition is changed. -/
def MergerGlobal.update (g : MergerGlobal) (j : ℕ) (f : MergePartition → MergePartition) : MergerGlobal :=
  { g with partitions := Function.update g.partitions j (f (g.partitions j)) }

theorem MergerGlobal.update_partitions_self {g : MergerGlobal} {j : ℕ}
    {f : MergePartition → MergePartition} : (g.update j f).partitions j = f (g.partitions j) :=
  Function.update_self ..

theorem MergerGlobal.update_partitions_of_ne {g : MergerGlobal} {i j : ℕ}
    {f : MergePartition → MergePartition} (h : i ≠ j) :
    (g.update j f).partitions i = g.partitions i :=
  Function.update_of_ne h ..

namespace Merger

variable {κ : Type*} [LinearOrder κ] (m : Merger κ)

def numPartitions : ℕ := (m.runs.total + (m.partitionSize - 1)) / m.partitionSize

/-- A merge partition as it is initialised. -/
def initialPartition (j : ℕ) : MergePartition where
  begins _ := 0
  ends r := min (m.runs.count r) ((j + 1) * m.partitionSize)
  beginComputed := j = 0
  scanned := false

def initialGlobal : MergerGlobal where
  nextPartitionIdx := 0
  partitions := m.initialPartition
  destroyLocked := false
  destroyPartitionIdx := 0
  destroyed _ := []
  acquired := []

def initialLocal : MergerLocal := ⟨.finished, 0, fun _ => 0, fun _ => 0⟩

/-- Whether `DestroyScannedData` has nothing to destroy, with the partitions up to
    `endPartitionIdx` scanned. -/
def nothingToDestroy (g : MergerGlobal) (endPartitionIdx : ℕ) : Bool := let e := endPartitionIdx - m.numThreads
  let tuplesPerPartition := ((e - g.destroyPartitionIdx) * m.partitionSize) / m.numPartitions
  endPartitionIdx < m.numThreads ∨ e ≤ g.destroyPartitionIdx ∨ tuplesPerPartition / m.tuplesPerBlock = 0

/-- `SortedRun::DestroyData`: the chunks of a range of tuples are destroyed. -/
def destroyData (g : MergerGlobal) (r tupleBegin tupleEnd : ℕ) : MergerGlobal :=
  let chunkStart := tupleBegin / standardVectorSize
  let chunkEnd := tupleEnd / standardVectorSize
  if chunkStart = chunkEnd then g
  else
    { g with destroyed := update g.destroyed r (g.destroyed r ++ [(chunkStart, chunkEnd)]) }

/-- The steps of `ComputePartitionBoundaries` up to the computation: the boundaries are copied, and an unknown begin
    is taken from an earlier partition. -/
def hintStep (g : MergerGlobal) (l : MergerLocal) : MergerTask → MergerLocal
  | .readBoundaries c =>
    let p := g.partitions (l.target c)
    { l with
      begins := p.begins
      ends := p.ends
      task := if p.beginComputed then .compute c else .findHint c (l.target c) }
  | .findHint c prev =>
    { l with task := if 1 < prev then
          if (g.partitions (prev - 1)).beginComputed then .copyHint c prev else .findHint c (prev - 1)
        else .compute c }
  | .copyHint c prev =>
    { l with begins := (g.partitions (prev - 1)).begins, task := .compute c }
  | _ => l

/-- The steps of `TemplatedComputePartitionBoundaries`. -/
def computeStep (l : MergerLocal) : MergerTask → MergerLocal
  | .compute c =>
    if l.target c = m.numPartitions - 1 then
      { l with begins := m.runs.count, task := .checkNext c }
    else
      { l with task := .probe c (mergePathStart m.runs ((l.target c + 1) * m.partitionSize) l.begins l.ends) }
  | .probe c path =>
    if path.totalRemaining = 0 then
      { l with begins := path.begins, ends := path.begins, task := .checkNext c }
    else { l with task := .probe c (mergePathStep m.runs path) }
  | _ => l

/-- The steps of `ComputePartitionBoundaries` after the computation: the boundaries are published as the end of the
    partition and, unless it is known, the begin of the next one. -/
def publishStep (g : MergerGlobal) (l : MergerLocal) : MergerTask → MergerGlobal × MergerLocal
  | .checkNext c =>
    (g, { l with task := if l.target c = m.numPartitions - 1 ∨ (g.partitions (l.target c + 1)).beginComputed then
        .publishEnd c
      else .publishNext c })
  | .publishNext c =>
    (if (g.partitions (l.target c + 1)).beginComputed then g
      else g.update (l.target c + 1) fun p => { p with begins := l.begins, beginComputed := true },
      { l with task := .publishEnd c })
  | .publishEnd c =>
    (g.update (l.target c) fun p => { p with ends := l.ends }, { l with task := match c with
        | .own => .acquire
        | .previous => .copyBoundaries })
  | _ => (g, l)

/-- The steps of `DestroyScannedData`. -/
def destroyStep (g : MergerGlobal) (l : MergerLocal) : MergerTask → MergerGlobal × MergerLocal
  | .tryDestroy =>
    if !m.external || g.destroyLocked then (g, { l with task := .setScanned })
    else
      ({ g with destroyLocked := true }, { l with task := .destroyScan g.destroyPartitionIdx })
  | .destroyScan e =>
    if e < m.numPartitions ∧ (g.partitions e).scanned then
      (g, { l with task := .destroyScan (e + 1) })
    else if m.nothingToDestroy g e then
      ({ g with destroyLocked := false }, { l with task := .setScanned })
    else (g, { l with task := .destroyRun (e - m.numThreads) 0 })
  | .destroyRun e r =>
    if r < m.runs.numRuns then
      let begins := if g.destroyPartitionIdx = 0 then 0
        else (g.partitions g.destroyPartitionIdx).ends r
      let ends := if e = m.numPartitions then m.runs.count r else (g.partitions e).ends r
      (destroyData g r begins ends, { l with task := .destroyRun e (r + 1) })
    else
      ({ g with destroyLocked := false, destroyPartitionIdx := e }, { l with task := .setScanned })
  | _ => (g, l)

/-- A step of a thread: `AssignTask` and `ExecuteTask`. -/
def threadStep (g : MergerGlobal) (l : MergerLocal) : MergerGlobal × MergerLocal := match l.task with
  | .finished =>
    if g.nextPartitionIdx = m.numPartitions then (g, l)
    else
      ({ g with nextPartitionIdx := g.nextPartitionIdx + 1 },
        { l with partitionIdx := g.nextPartitionIdx, task := .readBoundaries .own })
  | .readBoundaries _ | .findHint _ _ | .copyHint _ _ => (g, hintStep g l l.task)
  | .compute _ | .probe _ _ => (g, m.computeStep l l.task)
  | .checkNext _ | .publishNext _ | .publishEnd _ => m.publishStep g l l.task
  | .acquire =>
    (g, { l with task := if (g.partitions l.partitionIdx).beginComputed then .copyBoundaries
      else .readBoundaries .previous })
  | .copyBoundaries =>
    let p := g.partitions l.partitionIdx
    ({ g with acquired := g.acquired ++ [⟨l.partitionIdx, p.begins, p.ends⟩] },
      { l with begins := p.begins, ends := p.ends, task := .merge })
  | .merge => (g, { l with task := .scan })
  | .scan => (g, { l with task := .tryDestroy })
  | .tryDestroy | .destroyScan _ | .destroyRun _ _ => m.destroyStep g l l.task
  | .setScanned =>
    (g.update l.partitionIdx fun p => { p with scanned := true }, { l with task := .finished })

/-- A state of the system. -/
structure State where
  global : MergerGlobal
  threads : Fin m.numThreads → MergerLocal

/-- The state before the merge. -/
def init : m.State := ⟨m.initialGlobal, fun _ => initialLocal⟩

variable {m}

/-- A thread takes a step. -/
def State.step (s : m.State) (t : Fin m.numThreads) : m.State := let r := m.threadStep s.global (s.threads t)
  ⟨r.1, update s.threads t r.2⟩

/-- The states of all runs, with the steps of the threads in any order. -/
def Reachable (s : m.State) : Prop := WfOpt.Reachable (· = m.init) (fun s s' => ∃ t, s' = s.step t) s

theorem Reachable.foldl {s : m.State} (h : Reachable s) (l : List (Fin m.numThreads)) :
    Reachable (l.foldl State.step s) := by
  induction l generalizing s with
  | nil => exact h
  | cons t l ih => exact ih (.step h ⟨t, rfl⟩)

end Merger

end WfOpt

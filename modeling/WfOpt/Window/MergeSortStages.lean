import WfOpt.Window.DistinctLinks

/-!
# The stages of building a merge sort tree

The threads that have sunk rows into a merge sort tree build it together (`WindowMergeSortTreeLocalState::Finalize`):
they combine their local sorts, one of them materialises the sorted rows, and then they copy the indexes of these to
the leaves. Who does what is decided under a lock, by a stage and a pair of counters
(`MergeSortStaging.tryPrepareSortStage`); completed tasks are counted outside of the lock.
-/

namespace WfOpt

open Function

/-- `WindowMergeSortStage` -/
inductive MergeSortStage
  | init
  | combine
  | finalize
  | sorted
  | finished
  deriving DecidableEq

/-- Where a thread is in `Finalize`: it tests the stage, tries to prepare a task, and executes it, before it is
    counted; or it is in `BuildLeaves`, before a block. -/
inductive MergeSortProgress
  | test
  | prepare
  | execute
  | copy (blockCurr blockEnd rowIdx : ℕ)
  | complete
  | returned
  deriving DecidableEq

/-- `WindowMergeSortTreeLocalState` -/
structure MergeSortThread where
  progress : MergeSortProgress
  buildStage : MergeSortStage
  buildTask : ℕ

/-- The index column of the sorted rows, with the chunks of the collection they are in. -/
structure SortedRows where
  rows : List ℕ
  chunks : ChunkedRows
  count_eq : chunks.count = rows.length

namespace SortedRows

variable (data : SortedRows)

/-- The element of the leaf level at a position, with the position. -/
def leaf (p : ℕ) : ℕ × ℕ := (p, data.rows.getD p 0)

/-- What is copied for a chunk, to the leaves from `rowIdx` on. -/
def copyBlock (block rowIdx : ℕ) : List (ℕ × ℕ) := (List.range (data.chunks.chunkSize block)).map fun k =>
    (rowIdx + k, data.rows.getD (data.chunks.position block + k) 0)

/-- `block_begin`, of the chunks for a task. -/
def blockBegin (totalTasks task : ℕ) : ℕ := DistinctAggregator.blockBegin data.chunks totalTasks task

end SortedRows

/-- `WindowMergeSortTree`, with the threads in `Finalize` and rows given by indexes. What has been combined, finalized
    and written is recorded, and whether missing data has been accessed. -/
structure MergeSortStaging (ι : Type*) where
  buildStage : MergeSortStage
  totalTasks : ℕ
  tasksAssigned : ℕ
  tasksCompleted : ℕ
  localSinks : List (List ℕ)
  globalSink : List ℕ
  sorted : Option SortedRows
  thread : ι → MergeSortThread
  combined : List ℕ
  materialized : List SortedRows
  leaves : List (ℕ × ℕ)
  failed : Bool

namespace MergeSortStaging

variable {ι : Type*} [DecidableEq ι]

/-- The tree after all threads have sunk their rows. -/
def start (localSinks : List (List ℕ)) : MergeSortStaging ι where
  buildStage := .init
  totalTasks := 0
  tasksAssigned := 0
  tasksCompleted := 0
  localSinks := localSinks
  globalSink := []
  sorted := none
  thread _ := ⟨.test, .init, 0⟩
  combined := []
  materialized := []
  leaves := []
  failed := false

variable (T : MergeSortStaging ι) (t : ι)

/-- The thread goes on. -/
def proceed (progress : MergeSortProgress) : MergeSortStaging ι :=
  { T with thread := update T.thread t { T.thread t with progress := progress } }

/-- The stage that comes next, with its number of tasks. -/
def enter (stage : MergeSortStage) (totalTasks : ℕ) : MergeSortStaging ι := { T with
    buildStage := stage
    totalTasks := totalTasks
    tasksAssigned := 0
    tasksCompleted := 0 }

/-- The thread gets the next task of the stage. -/
def assign : MergeSortStaging ι := { T with
    tasksAssigned := T.tasksAssigned + 1
    thread := update T.thread t ⟨.execute, T.buildStage, T.tasksAssigned⟩ }

/-- `MeasurePayloadBlocks`, which reads the number of sorted rows. -/
def measurePayloadBlocks : MergeSortStaging ι := { T with failed := T.failed || T.sorted.isNone }

/-- `Finished`, and the stage that follows. -/
def release : MergeSortStaging ι := { T with
    buildStage := .finished
    localSinks := []
    globalSink := []
    sorted := none }

/-- The thread has no task, but executes the empty one of the last stage. -/
def finish : MergeSortStaging ι := { T with
    buildStage := .finished
    thread := update T.thread t { T.thread t with progress := .execute, buildStage := .finished } }

/-- The thread waits for the last tasks of the other threads. -/
def awaitLast : MergeSortStaging ι := { T with
    thread := update T.thread t { T.thread t with progress := .test, buildStage := .finished } }

/-- `TryPrepareSortStage`, which holds the lock. -/
def tryPrepareSortStage : MergeSortStaging ι := match T.buildStage with
  | .init => (T.enter .combine T.localSinks.length).assign t
  | .combine =>
    if T.tasksAssigned < T.totalTasks then T.assign t
    else if T.tasksCompleted < T.tasksAssigned then T.proceed t .test
    else (T.enter .finalize 1).assign t
  | .finalize =>
    if T.tasksCompleted < T.tasksAssigned then T.proceed t .test
    else (T.measurePayloadBlocks.enter .sorted T.localSinks.length).assign t
  | .sorted =>
    if T.tasksAssigned < T.totalTasks then T.assign t
    else if T.tasksCompleted < T.tasksAssigned then T.awaitLast t
    else T.release.finish t
  | .finished => T.finish t

/-- `BuildLeaves`, up to the first block. -/
def buildLeaves : MergeSortStaging ι := match T.sorted with
  | none => { T.proceed t .complete with failed := true }
  | some data =>
    if data.rows.length = 0 then T.proceed t .complete
    else
      let blockBegin := data.blockBegin T.totalTasks (T.thread t).buildTask
      let blockEnd := data.blockBegin T.totalTasks ((T.thread t).buildTask + 1)
      T.proceed t (.copy blockBegin blockEnd (data.chunks.position blockBegin))

/-- `BuildLeaves`: the next block, if there is one. -/
def copyBlock (blockCurr blockEnd rowIdx : ℕ) : MergeSortStaging ι := match T.sorted with
  | none => { T.proceed t .complete with failed := true }
  | some data =>
    if blockCurr < blockEnd ∧ blockCurr < data.chunks.chunks.length then
      { T.proceed t (.copy (blockCurr + 1) blockEnd (rowIdx + data.chunks.chunkSize blockCurr)) with
        leaves := T.leaves ++ data.copyBlock blockCurr rowIdx }
    else T.proceed t .complete

/-- `ExecuteSortTask`. The sort of the rows in the global sink is `data`. -/
def executeSortTask (data : SortedRows) : MergeSortStaging ι := match (T.thread t).buildStage with
  | .combine =>
    { T.proceed t .complete with
      globalSink := T.globalSink ++ T.localSinks.getD (T.thread t).buildTask []
      combined := T.combined ++ [(T.thread t).buildTask]
      failed := T.failed || T.localSinks.length ≤ (T.thread t).buildTask }
  | .finalize =>
    { T.proceed t .complete with sorted := some data, materialized := T.materialized ++ [data] }
  | .sorted => T.buildLeaves t
  | .init => T.proceed t .complete
  | .finished => T.proceed t .complete

/-- A step of a thread in `Finalize`. -/
def step (data : SortedRows) : MergeSortStaging ι := match (T.thread t).progress with
  | .test => if T.buildStage = .finished then T.proceed t .returned else T.proceed t .prepare
  | .prepare => T.tryPrepareSortStage t
  | .execute => T.executeSortTask t data
  | .copy blockCurr blockEnd rowIdx => T.copyBlock t blockCurr blockEnd rowIdx
  | .complete => { T.proceed t .test with tasksCompleted := T.tasksCompleted + 1 }
  | .returned => T

/-- Some thread makes a step. What is sorted are the rows of the global sink. -/
def Next (T T' : MergeSortStaging ι) : Prop := ∃ t data, data.rows.Perm T.globalSink ∧ T' = T.step t data

end MergeSortStaging

end WfOpt

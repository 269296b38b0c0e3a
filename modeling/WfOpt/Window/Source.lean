import WfOpt.Basic
import WfOpt.Lib.Transition

/-!
# The source of the window operator

Threads evaluate the hash groups of a window operator in parallel (`WindowGlobalSourceState`). The blocks of a group
are masked, sunk, finalized, and then returned; in each stage, the group has a task per thread. A thread that has
finished its task looks for a group that has one (`TryNextTask`), and moves groups on to their next stage.

The system is modelled by the steps of its threads (`WindowSource.threadStep`). What is done for one group under the
lock of the source is one step, and so is what is done for a range of blocks up to where it is counted.
-/

namespace WfOpt

open Function

/-- `WindowGroupStage`. -/
inductive WindowGroupStage
  | mask
  | sink
  | finalize
  | getData
  | done
  deriving DecidableEq, Repr

namespace WindowGroupStage

def toIdx : WindowGroupStage → ℕ
  | mask => 0
  | sink => 1
  | finalize => 2
  | getData => 3
  | done => 4

/-- The cast of an integer. -/
def ofIdx : ℕ → WindowGroupStage
  | 0 => mask
  | 1 => sink
  | 2 => finalize
  | 3 => getData
  | _ => done

end WindowGroupStage

/-- `WindowGlobalSourceState::Task`. -/
structure WindowTask where
  stage : WindowGroupStage
  groupIdx : ℕ
  threadIdx : ℕ
  maxIdx : ℕ
  beginIdx : ℕ
  endIdx : ℕ
  deriving DecidableEq, Repr

/-- `WindowHashGroup`: stage, next task and counters. The blocks processed in each stage are recorded. A group is
    `released` when its pointer has been reset. -/
structure WindowHashGroup where
  stage : WindowGroupStage
  nextTask : ℕ
  masked : ℕ
  sunk : ℕ
  finalized : ℕ
  completed : ℕ
  released : Bool
  processed : WindowGroupStage → List ℕ

/-! ## Groups and their tasks -/

/-- The groups that are there, with the number of their blocks, from the largest to
    the smallest. -/
def partitionBlocks (hashGroups : List (Option (List ℕ))) : List (ℕ × ℕ) :=
  ((List.range hashGroups.length).filterMap fun groupIdx =>
    (hashGroups.getD groupIdx none).map fun chunks => (chunks.length, groupIdx)).mergeSort
      fun a b => decide (b.1 < a.1 ∨ (b.1 = a.1 ∧ b.2 ≤ a.2))

/-- The number of blocks per thread, which `CreateTaskList` computes. -/
def blocksPerThread (hashGroups : List (Option (List ℕ))) (threads : ℕ) : ℕ :=
  let maxBlock := ((partitionBlocks hashGroups).head?.getD (0, 0)).1
  let alignedScale := max (64 / standardVectorSize) 1
  let alignedCount := (maxBlock + alignedScale - 1) / alignedScale
  alignedScale * ((alignedCount + threads - 1) / threads)

/-- The hash groups with the sizes of their chunks, and the number of threads. `CreateTaskList` fails without blocks
    per thread. -/
structure WindowSource where
  hashGroups : List (Option (List ℕ))
  threads : ℕ
  perThread_pos : hashGroups ≠ [] → 0 < blocksPerThread hashGroups threads

namespace WindowSource

variable (w : WindowSource)

def perThread : ℕ := blocksPerThread w.hashGroups w.threads

/-- The sizes of the chunks of a group. -/
def chunks (g : ℕ) : List ℕ := (w.hashGroups.getD g none).getD []

/-- The number of blocks of a group. -/
def blocks (g : ℕ) : ℕ := (w.chunks g).length

/-- The number of rows of a block. -/
def blockSize (g b : ℕ) : ℕ := (w.chunks g).getD b 0

/-- The number of rows of a group. -/
def count (g : ℕ) : ℕ := (w.chunks g).sum

/-- `GetThreadCount`, as set by `InitTasks`. -/
def threadCount (g : ℕ) : ℕ := (w.blocks g + w.perThread - 1) / w.perThread

/-- `GetTaskCount`. -/
def taskCount (g : ℕ) : ℕ := w.threadCount g * (WindowGroupStage.done.toIdx - WindowGroupStage.mask.toIdx)

/-- The groups in the order they are started. -/
def groups : List ℕ := (partitionBlocks w.hashGroups).map Prod.snd

/-- The number of all tasks. -/
def totalTasks : ℕ := (w.groups.map w.taskCount).sum

end WindowSource

namespace WindowHashGroup

variable (w : WindowSource) (g : ℕ)

/-- `TryPrepareNextStage`. -/
def tryPrepareNextStage (G : WindowHashGroup) : WindowHashGroup := match G.stage with
  | .mask => if G.masked = w.blocks g then { G with stage := .sink } else G
  | .sink => if G.sunk = w.count g then { G with stage := .finalize } else G
  | .finalize => if G.finalized = w.blocks g then { G with stage := .getData } else G
  | .getData | .done => G

/-- The task with a number. -/
def task (k : ℕ) : WindowTask where
  stage := .ofIdx (k / w.threadCount g)
  groupIdx := g
  threadIdx := k % w.threadCount g
  maxIdx := w.blocks g
  beginIdx := k % w.threadCount g * w.perThread
  endIdx := min (k % w.threadCount g * w.perThread + w.perThread) (w.blocks g)

/-- `TryNextTask`. -/
def tryNextTask (G : WindowHashGroup) : Option (WindowTask × WindowHashGroup) :=
  if w.taskCount g ≤ G.nextTask then none
  else
    let next := task w g G.nextTask
    if next.stage = G.stage then some (next, { G with nextTask := G.nextTask + 1 }) else none

/-- Blocks are processed. -/
def process (G : WindowHashGroup) (stage : WindowGroupStage) (bs : List ℕ) : WindowHashGroup :=
  { G with processed := update G.processed stage (G.processed stage ++ bs) }

end WindowHashGroup

/-! ## The system -/

/-- The variables of `WindowGlobalSourceState`. The holder of the lock and the tasks handed out and finished are
    recorded. -/
structure SourceGlobal where
  groups : ℕ → WindowHashGroup
  activeGroups : List ℕ
  nextGroup : ℕ
  started : ℕ
  stopped : Bool
  lock : Option ℕ
  handed : List (ℕ × WindowTask)
  finished : List (ℕ × WindowTask)

/-- Where a thread is. -/
inductive SourcePhase
  /-- Not in `TryNextTask`. -/
  | ready
  /-- In `TryNextTask`, in the loop over the active groups. -/
  | tryActive (i : ℕ)
  /-- In `TryNextTask`, in the loop that starts groups. -/
  | tryStart
  /-- An exception has been thrown. -/
  | failed
  deriving DecidableEq, Repr

/-- `WindowLocalSourceState`. -/
structure SourceLocal where
  task : Option WindowTask
  phase : SourcePhase

/-- `TaskFinished`. -/
def SourceLocal.taskFinished (l : SourceLocal) : Bool := match l.task with
  | none => true
  | some task => task.beginIdx = task.endIdx

namespace SourceGlobal

variable (w : WindowSource) (s : SourceGlobal)

/-- A group is changed. -/
def setGroup (g : ℕ) (G : WindowHashGroup) : SourceGlobal := { s with groups := update s.groups g G }

/-- `FinishTask`. -/
def finishTask (t : ℕ) : Option WindowTask → SourceGlobal
  | none => s
  | some task =>
    let g := task.groupIdx
    let completed := (s.groups g).completed + 1
    let last := w.taskCount g ≤ completed
    { s.setGroup g { s.groups g with
        completed := completed
        released := last || (s.groups g).released } with
      activeGroups := if last then s.activeGroups.filter (· ≠ g) else s.activeGroups
      finished := s.finished ++ [(t, task)] }

/-- `HasMoreTasks`. -/
def hasMoreTasks : Bool := !s.stopped && decide (s.started < w.totalTasks)

/-- A group is tried for a task: it is prepared for its next stage, and its next task
    is taken. -/
def tryGroup (t g : ℕ) : SourceGlobal × Option WindowTask := let G := (s.groups g).tryPrepareNextStage w g
  match G.tryNextTask w g with
  | some (task, G') =>
    ({ s.setGroup g G' with
      started := s.started + 1
      lock := none
      handed := s.handed ++ [(t, task)] }, some task)
  | none => (s.setGroup g G, none)

/-- A step of `ExecuteTask`: a range of blocks is masked or finalized, or a block is
    sunk or returned. -/
def executeTask (task : WindowTask) : SourceGlobal × WindowTask := let g := task.groupIdx
  let G := s.groups g
  let range := List.range' task.beginIdx (task.endIdx - task.beginIdx)
  match task.stage with
  | .mask =>
    (s.setGroup g { G.process .mask range with
      masked := G.masked + (task.endIdx - task.beginIdx) }, { task with beginIdx := task.endIdx })
  | .sink =>
    (s.setGroup g { G.process .sink [task.beginIdx] with
      sunk := G.sunk + w.blockSize g task.beginIdx }, { task with beginIdx := task.beginIdx + 1 })
  | .finalize =>
    (s.setGroup g { G.process .finalize range with
      finalized := G.finalized + (task.endIdx - task.beginIdx) },
      { task with beginIdx := task.endIdx })
  | .getData =>
    (s.setGroup g (G.process .getData [task.beginIdx]), { task with beginIdx := task.beginIdx + 1 })
  | .done => (s, task)

end SourceGlobal

namespace WindowSource

variable (w : WindowSource)

/-- A step of a thread. One that has finished its task can ask for the next one at any
    time, when the lock is free. -/
def threadStep (t : ℕ) (s : SourceGlobal) (l : SourceLocal) : SourceGlobal × SourceLocal := match l.phase with
  | .ready =>
    if l.taskFinished then
      if s.lock ≠ none then (s, l)
      else
        let s' := s.finishTask w t l.task
        if s'.hasMoreTasks w then ({ s' with lock := some t }, ⟨none, .tryActive 0⟩)
        else (s', ⟨none, .ready⟩)
    else
      match l.task with
      | none => (s, l)
      | some task => ((s.executeTask w task).1, ⟨some (s.executeTask w task).2, .ready⟩)
  | .tryActive i =>
    match s.activeGroups[i]? with
    | none => (s, { l with phase := .tryStart })
    | some g =>
      match s.tryGroup w t g with
      | (s', some task) => (s', ⟨some task, .ready⟩)
      | (s', none) => (s', { l with phase := .tryActive (i + 1) })
  | .tryStart =>
    match w.groups[s.nextGroup]? with
    | none => ({ s with lock := none }, ⟨none, .ready⟩)
    | some g =>
      let s' := { s with nextGroup := s.nextGroup + 1, activeGroups := s.activeGroups ++ [g] }
      match s'.tryGroup w t g with
      | (s', some task) => (s', ⟨some task, .ready⟩)
      | (s', none) => (s', l)
  | .failed => (s, l)

/-- `ExecuteTask` throws an exception. -/
def threadThrow (s : SourceGlobal) (l : SourceLocal) : SourceGlobal × SourceLocal :=
  if l.phase = .ready ∧ l.taskFinished = false then
    ({ s with stopped := true }, { l with phase := .failed })
  else (s, l)

/-- A state of the system, with any number of threads. -/
structure State where
  global : SourceGlobal
  threads : ℕ → SourceLocal

def init : State where
  global :=
    { groups := fun _ => ⟨.mask, 0, 0, 0, 0, 0, false, fun _ => []⟩
      activeGroups := []
      nextGroup := 0
      started := 0
      stopped := false
      lock := none
      handed := []
      finished := [] }
  threads := fun _ => ⟨none, .ready⟩

/-- A thread is changed. -/
def State.set (s : State) (t : ℕ) (r : SourceGlobal × SourceLocal) : State := ⟨r.1, update s.threads t r.2⟩

/-- The states of all runs, with the steps of the threads in any order. -/
def Reachable (s : State) : Prop := WfOpt.Reachable (· = init) (fun s s' => ∃ t,
    s' = s.set t (w.threadStep t s.global (s.threads t)) ∨ s' = s.set t (threadThrow s.global (s.threads t))) s

end WindowSource

end WfOpt

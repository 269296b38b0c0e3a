import WfOpt.Sort.RadixPartitioning
import WfOpt.Lib.Transition

/-!
# Hash groups

The rows of a window operator are grouped by the hashes of their partitions (`HashedSort`). Each thread appends its
rows to a local radix partitioning (`Sink`), whose number of bits follows that of a shared one, and in the end
combines its partitions into the hash groups (`Combine`).

The system is modelled by the steps of its threads (`HashedSort.threadStep`). What is done under the lock of the
sink or of a hash group is one step, as is what only changes the state of the thread.
-/

namespace WfOpt

open RadixPartitioning

/-- `DEFAULT_ROW_GROUP_SIZE`. -/
def defaultRowGroupSize : ℕ := 122880

/-- A loop `while (n < limit && p(n)) { ++n; }`. -/
def incrementWhile (limit : ℕ) (p : ℕ → Bool) (n : ℕ) : ℕ :=
  if n < limit ∧ p n then incrementWhile limit p (n + 1) else n
  termination_by limit - n

theorem le_incrementWhile {limit : ℕ} {p : ℕ → Bool} {n : ℕ} : n ≤ incrementWhile limit p n := by
  fun_induction incrementWhile limit p n with
  | case1 n h ih => exact (Nat.le_succ n).trans ih
  | case2 => exact le_rfl

theorem incrementWhile_le {limit : ℕ} {p : ℕ → Bool} {n m : ℕ} (hn : n ≤ m) (hm : limit ≤ m) :
    incrementWhile limit p n ≤ m := by
  fun_induction incrementWhile limit p n with
  | case1 n h ih => exact ih (h.1.trans_le hm)
  | case2 => exact hn

/-- A chunk of rows, as it is given to `Sink`. If partitions are pruned, only the rows of a
    selection are appended. -/
structure HashedChunk (α : Type*) where
  rows : List α
  selection : Option (List ℕ)
  deriving DecidableEq

/-- The rows of a chunk that are appended. -/
def HashedChunk.appended {α : Type*} (c : HashedChunk α) : List α := match c.selection with
  | none => c.rows
  | some selection => selection.filterMap fun i => c.rows[i]?

/-- A sort with partitions: the hashes of the rows, what the number of bits depends on, and the chunks of each thread.
    The bits of a synced sort are fixed, if there are any. -/
structure HashedSort (α : Type*) where
  hash : α → UInt64
  threadPages : ℕ
  estimatedCardinality : ℕ
  synced : Option ℕ
  synced_le : ∀ bits ∈ synced, bits ≤ maxRadixBits
  numThreads : ℕ
  chunks : Fin numThreads → List (HashedChunk α)

/-! ## The global state -/

section Global

variable {α : Type*}

/-- `HashedSortGlobalSinkState`, with the rows of the hash groups that are there. -/
structure HashedGlobal (hash : α → UInt64) where
  groupingData : RadixPartitionedTupleData hash
  fixedBits : ℕ
  hashGroups : List (Option (List α))
  count : ℕ

/-- The bits the constructor limits `Rehash` to. -/
def maxBits (threadPages : ℕ) : ℕ := incrementWhile 8 (fun bits => 1 < threadPages >>> bits) 1

/-- The bits `Rehash` computes. -/
def rehashBits (maxBits cardinality bits : ℕ) : ℕ := incrementWhile maxBits
    (fun newBits => defaultRowGroupSize < cardinality / numberOfPartitions newBits)
    (if bits ≠ 0 then bits else 4)

theorem maxBits_le {threadPages : ℕ} : maxBits threadPages ≤ 8 := incrementWhile_le (by decide) le_rfl

theorem le_rehashBits {m c b : ℕ} : b ≤ rehashBits m c b := by
  refine le_trans ?_ le_incrementWhile
  split_ifs with hb
  · exact le_rfl
  · omega

theorem rehashBits_le {threadPages c b : ℕ} (hb : b ≤ maxRadixBits) :
    rehashBits (maxBits threadPages) c b ≤ maxRadixBits := by
  refine incrementWhile_le ?_ (maxBits_le.trans (by decide))
  split_ifs
  · exact hb
  · decide

namespace HashedGlobal

variable {hash : α → UInt64} (threadPages : ℕ) (g : HashedGlobal hash)

/-- The number of bits that is shared. -/
def bits : ℕ := g.groupingData.radixBits

theorem bits_le : g.bits ≤ maxRadixBits := g.groupingData.radixBits_le

/-- `Rehash`. -/
def rehash (cardinality : ℕ) : HashedGlobal hash := if g.fixedBits ≠ 0 then g
  else
    let newBits := rehashBits (maxBits threadPages) cardinality g.bits
    if newBits ≠ g.bits then
      { g with groupingData := .create hash newBits (rehashBits_le g.bits_le) }
    else g

/-- `SyncLocalPartition`. -/
def syncLocalPartition (p : RadixPartitionedTupleData hash) : RadixPartitionedTupleData hash :=
  if p.radixBits = g.bits then p
  else p.repartition (.create hash g.bits g.bits_le)

/-- `UpdateLocalPartition`. -/
def updateLocalPartition (p : Option (RadixPartitionedTupleData hash)) :
    HashedGlobal hash × RadixPartitionedTupleData hash :=
  match p with
  | none => (g, .create hash g.bits g.bits_le)
  | some p =>
    let g := g.rehash threadPages g.count
    (g, g.syncLocalPartition p)

/-- A hash group that is missing is created, if it gets rows. -/
def createGroup (partition : List α) : Option (List α) → Option (List α)
  | some rows => some rows
  | none => if partition.length ≠ 0 then some [] else none

/-- The loop of `CombineLocalPartition`. -/
def createGroups (partitions : List (List α)) (groups : List (Option (List α))) : List (Option (List α)) :=
  (List.range partitions.length).foldl
    (fun groups i => groups.modify i (createGroup (partitions.getD i []))) groups

/-- `CombineLocalPartition`, with a local partition. -/
def combineLocalPartition (p : RadixPartitionedTupleData hash) :
    HashedGlobal hash × RadixPartitionedTupleData hash :=
  let p := g.syncLocalPartition p
  let groups := if g.hashGroups.isEmpty then List.replicate p.partitions.length none else g.hashGroups
  ({ g with fixedBits := 1, hashGroups := createGroups p.partitions groups }, p)

end HashedGlobal

end Global

/-! ## The system -/

/-- Where a thread is. -/
inductive SinkPhase (α : Type*)
  /-- Before the next chunk, or before `Combine`. -/
  | ready
  /-- In `Sink`, before `UpdateLocalPartition`. -/
  | update (chunk : HashedChunk α)
  /-- In `Sink`, before `Append`. -/
  | append (chunk : HashedChunk α)
  /-- In `Combine`, in the loop over the partitions. -/
  | combine (hashBin : ℕ)
  | finished
  /-- A pointer is dereferenced that is null. -/
  | failed
  deriving DecidableEq

/-- `HashedSortLocalSinkState`, with the chunks that are not sunk yet. -/
structure HashedLocal {α : Type*} (hash : α → UInt64) where
  chunks : List (HashedChunk α)
  localGrouping : Option (RadixPartitionedTupleData hash)
  phase : SinkPhase α

namespace HashedSort

variable {α : Type*} (h : HashedSort α)

/-- The bits the constructor starts with. -/
def initialBits : ℕ := rehashBits (maxBits h.threadPages) h.estimatedCardinality 0

/-- The global state when the sink starts: that of the constructor, or after
    `SyncPartitioning`. -/
def initialGlobal : HashedGlobal h.hash where
  groupingData := .create h.hash (h.synced.getD h.initialBits) (by
    cases hs : h.synced with
    | none => exact rehashBits_le (Nat.zero_le _)
    | some bits => exact h.synced_le bits hs)
  fixedBits := h.synced.getD 0
  hashGroups := []
  count := 0

variable {h}

/-- A step of the loop of `Combine`. -/
def combineStep (g : HashedGlobal h.hash) (l : HashedLocal h.hash)
    (p : RadixPartitionedTupleData h.hash) (hashBin : ℕ) :
    HashedGlobal h.hash × HashedLocal h.hash :=
  if hashBin < p.partitions.length then
    if (p.partitions.getD hashBin []).length = 0 then
      (g, { l with phase := .combine (hashBin + 1) })
    else
      match g.hashGroups.getD hashBin none with
      | none => (g, { l with phase := .failed })
      | some rows =>
        ({ g with
            hashGroups := g.hashGroups.set hashBin
              (some (rows ++ p.partitions.getD hashBin [])) },
          { l with localGrouping := some (p.scanned hashBin), phase := .combine (hashBin + 1) })
  else (g, { l with phase := .finished })

/-- A step of a thread: of `Sink` for its next chunk, and of `Combine` when it has no more
    chunks. -/
def threadStep (g : HashedGlobal h.hash) (l : HashedLocal h.hash) : HashedGlobal h.hash × HashedLocal h.hash :=
  match l.phase with
  | .ready =>
    match l.chunks with
    | chunk :: chunks =>
      ({ g with count := g.count + chunk.rows.length }, { l with chunks := chunks, phase := .update chunk })
    | [] =>
      match l.localGrouping with
      | none => (g, { l with phase := .finished })
      | some p =>
        let r := g.combineLocalPartition p
        (r.1, { l with localGrouping := some r.2, phase := .combine 0 })
  | .update chunk =>
    let r := g.updateLocalPartition h.threadPages l.localGrouping
    (r.1, { l with localGrouping := some r.2, phase := .append chunk })
  | .append chunk =>
    match l.localGrouping with
    | none => (g, { l with phase := .failed })
    | some p => (g, { l with localGrouping := some (p.append chunk.appended), phase := .ready })
  | .combine hashBin =>
    match l.localGrouping with
    | none => (g, { l with phase := .failed })
    | some p => combineStep g l p hashBin
  | .finished | .failed => (g, l)

variable (h)

/-- A state of the system. -/
structure State where
  global : HashedGlobal h.hash
  threads : Fin h.numThreads → HashedLocal h.hash

def init : h.State := ⟨h.initialGlobal, fun t => ⟨h.chunks t, none, .ready⟩⟩

variable {h}

/-- A thread takes a step. -/
def State.step (s : h.State) (t : Fin h.numThreads) : h.State where
  global := (threadStep s.global (s.threads t)).1
  threads := Function.update s.threads t (threadStep s.global (s.threads t)).2

/-- The states of all runs, with the steps of the threads in any order. -/
def Reachable (s : h.State) : Prop := WfOpt.Reachable (· = h.init) (fun s s' => ∃ t, s' = s.step t) s

end HashedSort

end WfOpt

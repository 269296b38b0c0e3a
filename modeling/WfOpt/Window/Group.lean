import WfOpt.Basic

/-!
# Hash groups

A hash group as the window operator evaluates it: rows in sorted order, cut into chunks, with the boundary masks
telling where a partition and where a group of peers starts (`WindowHashGroup`). The bounds of a row are the last such
starts (`lastStart`), and its rank is one plus the distance between the two (`HashGroup.rank`).
-/

namespace WfOpt

open List

/-! ## Boundary masks -/

/-- The last start at or before the row `r`, i.e., the last set bit of the mask. -/
def lastStart (mask : ℕ → Bool) (r : ℕ) : ℕ := Nat.findGreatest (fun s => mask s = true) r

theorem lastStart_le (mask : ℕ → Bool) (r : ℕ) : lastStart mask r ≤ r := Nat.findGreatest_le r

variable {mask : ℕ → Bool}

theorem lastStart_of_start {r : ℕ} (h : mask r = true) : lastStart mask r = r := Nat.findGreatest_eq h

theorem lastStart_of_not_start {r : ℕ} (h : mask (r + 1) ≠ true) : lastStart mask (r + 1) = lastStart mask r :=
  Nat.findGreatest_of_not h

theorem le_lastStart {s r : ℕ} (hs : mask s = true) (h : s ≤ r) : s ≤ lastStart mask r := Nat.le_findGreatest h hs

theorem lastStart_spec (h₀ : mask 0 = true) (r : ℕ) : mask (lastStart mask r) = true :=
  Nat.findGreatest_spec (P := fun s => mask s = true) (Nat.zero_le r) h₀

theorem lastStart_mono (mask : ℕ → Bool) {r r' : ℕ} (h : r ≤ r') : lastStart mask r ≤ lastStart mask r' :=
  Nat.findGreatest_mono_right _ h

/-- Without a start in between, the last start does not move. -/
theorem lastStart_eq_of_no_start {r r' : ℕ} (h : r ≤ r')
    (hno : ∀ s, r < s → s ≤ r' → mask s ≠ true) : lastStart mask r' = lastStart mask r := by
  induction r', h using Nat.le_induction with
  | base => rfl
  | succ n hn ih =>
    rw [lastStart_of_not_start (hno (n + 1) (by omega) le_rfl)]
    exact ih fun s h₁ h₂ => hno s h₁ (by omega)

/-! ## Chunks -/

/-- Rows cut into chunks, which are given by their sizes. -/
structure ChunkedRows where
  /-- The sizes of the chunks. -/
  chunks : List ℕ
  chunks_pos : ∀ n ∈ chunks, 1 ≤ n

namespace ChunkedRows

variable (g : ChunkedRows)

/-- The number of rows. -/
def count : ℕ := g.chunks.sum

/-- The row a chunk starts at (`Scanned()` before the chunk is scanned). -/
def position (c : ℕ) : ℕ := (g.chunks.take c).sum

/-- The number of rows of a chunk. -/
def chunkSize (c : ℕ) : ℕ := g.chunks.getD c 0

variable {g}

@[simp] theorem position_zero : g.position 0 = 0 := rfl

/-- A chunk ends where the next one starts. -/
theorem position_succ {c : ℕ} (hc : c < g.chunks.length) : g.position (c + 1) = g.position c + g.chunkSize c := by
  rw [position, position, chunkSize, take_succ_eq_append_getElem hc, sum_append,
    sum_singleton, getD_eq_getElem _ _ hc]

theorem position_length : g.position g.chunks.length = g.count := by
  rw [position, count, take_length]

/-- A chunk lies in the group. -/
theorem position_add_chunkSize_le {c : ℕ} (hc : c < g.chunks.length) : g.position c + g.chunkSize c ≤ g.count := by
  have := sum_take_add_sum_drop g.chunks (c + 1)
  rw [← position_succ hc, position, count]
  omega

theorem chunkSize_pos {c : ℕ} (hc : c < g.chunks.length) : 0 < g.chunkSize c := by
  rw [chunkSize, getD_eq_getElem _ _ hc]
  exact g.chunks_pos _ (getElem_mem hc)

theorem position_mono {c c' : ℕ} (h : c ≤ c') : g.position c ≤ g.position c' := by
  obtain ⟨n, rfl⟩ := Nat.exists_eq_add_of_le h
  rw [position, position, take_add, sum_append]
  exact Nat.le_add_right _ _

end ChunkedRows

/-! ## Groups -/

/-- A sorted hash group: its chunks, and its boundary masks. -/
structure HashGroup extends ChunkedRows where
  /-- The bits of `partition_mask`: the rows that start a partition. -/
  partitionMask : ℕ → Bool
  /-- The bits of the order mask: the rows that start a group of peers. -/
  orderMask : ℕ → Bool
  chunks_le : ∀ n ∈ chunks, n ≤ standardVectorSize
  partition_zero : partitionMask 0 = true
  order_of_partition : ∀ r, partitionMask r = true → orderMask r = true
  count_lt : toChunkedRows.count < idxRange

namespace HashGroup

variable (g : HashGroup)

/-- The starts of the partitions in a chunk, in increasing order: the cache
    `partition_begins` of the group. -/
def partitionBegins (c : ℕ) : List ℕ := (range' (g.position c) (g.chunkSize c)).filter g.partitionMask

/-- The bound `PARTITION_BEGIN` of a row. -/
def partitionBegin (r : ℕ) : ℕ := lastStart g.partitionMask r

/-- The bound `PEER_BEGIN` of a row. -/
def peerBegin (r : ℕ) : ℕ := lastStart g.orderMask r

/-- The rank of a row: the rows of its partition before its peers, plus one. -/
def rank (r : ℕ) : ℕ := g.peerBegin r - g.partitionBegin r + 1

variable {g}

/-- A partition starts at or before the peers of each of its rows. -/
theorem partitionBegin_le_peerBegin (r : ℕ) : g.partitionBegin r ≤ g.peerBegin r :=
  le_lastStart (g.order_of_partition _ (lastStart_spec g.partition_zero r)) (lastStart_le _ _)

theorem rank_of_start {r : ℕ} (h : g.partitionMask r = true) : g.rank r = 1 := by
  rw [rank, peerBegin, partitionBegin, lastStart_of_start h,
    lastStart_of_start (g.order_of_partition r h), Nat.sub_self]

theorem rank_mono {r r' : ℕ} (h : r ≤ r') (hno : ∀ s, r < s → s ≤ r' → g.partitionMask s ≠ true) :
    g.rank r ≤ g.rank r' := by
  have h₁ : g.partitionBegin r' = g.partitionBegin r := lastStart_eq_of_no_start h hno
  have h₂ : g.peerBegin r ≤ g.peerBegin r' := lastStart_mono _ h
  rw [rank, rank, h₁]
  omega

end HashGroup

end WfOpt

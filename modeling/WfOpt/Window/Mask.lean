import WfOpt.Lib.Transition
import WfOpt.Window.Group

/-!
# Boundary masks

The first stage of the evaluation of a hash group marks where its partitions and its groups of peers start, in one
mask for the partitions and one for every number of order columns that is compared. A task marks a range of blocks,
by the writes of a *delta scan* (`MaskStep`). The masks consist of 64-bit entries, which tasks can share.

* `computeMasksForSmallRuns`, for chunks of any sizes: every task runs under a lock;
* `computeMasks`, for full chunks: the writes are interleaved in any way, but no entry is shared.

Both compute the same masks (`masks_independent`).
-/

namespace WfOpt

open List

/-! ## Masks -/

/-- The masks of a group: that of the partitions, and one for each number of
    columns an order mask compares. -/
inductive MaskId
  | partition
  | order (columns : ℕ)
  deriving DecidableEq, Repr

/-- The masks, given by their entries, and the cache of the partition starts, by
    block. -/
structure Masks where
  entries : MaskId → ℕ → BitVec 64
  partitionBegins : ℕ → List ℕ

/-- A write of a mask task. -/
inductive MaskStep
  /-- `validity_mask[i] = v` -/
  | store (m : MaskId) (i : ℕ) (v : BitVec 64)
  /-- `validity_mask[i] &= v` -/
  | keep (m : MaskId) (i : ℕ) (v : BitVec 64)
  /-- `SetValidUnsafe(row)` -/
  | setValid (m : MaskId) (row : ℕ)
  /-- `partition_begins[block].push_back(row)` -/
  | pushBegin (block row : ℕ)
  deriving DecidableEq

namespace Masks

/-- The masks as they are allocated: all bits are set. -/
def allocate : Masks := ⟨fun _ _ => BitVec.allOnes 64, fun _ => []⟩

/-- The entry `i` of a mask is changed. -/
def update (s : Masks) (m : MaskId) (i : ℕ) (f : BitVec 64 → BitVec 64) : Masks :=
  { s with entries := fun m' i' =>
      if m' = m ∧ i' = i then f (s.entries m i) else s.entries m' i' }

def step (s : Masks) : MaskStep → Masks
  | .store m i v => s.update m i fun _ => v
  | .keep m i v => s.update m i (· &&& v)
  | .setValid m row => s.update m (row / 64) (· ||| (1#64 <<< (row % 64)))
  | .pushBegin block row =>
    { s with partitionBegins := Function.update s.partitionBegins block (s.partitionBegins block ++ [row]) }

/-- The masks after a list of writes. -/
def run (s : Masks) (steps : List MaskStep) : Masks := steps.foldl step s

/-- `RowIsValid`: the bit of a row. -/
def bit (s : Masks) (m : MaskId) (row : ℕ) : Bool := (s.entries m (row / 64)).getLsbD (row % 64)

@[simp] theorem run_nil (s : Masks) : s.run [] = s := rfl

@[simp] theorem run_cons (s : Masks) (a : MaskStep) (l : List MaskStep) : s.run (a :: l) = (s.step a).run l := rfl

@[simp] theorem run_append (s : Masks) (l l' : List MaskStep) : s.run (l ++ l') = (s.run l).run l' := foldl_append

/-- Changing an entry changes the bits of its rows. -/
theorem bit_update (s : Masks) (m m' : MaskId) (i r : ℕ) (f : BitVec 64 → BitVec 64) : (s.update m i f).bit m' r =
      if m' = m ∧ r / 64 = i then (f (s.entries m i)).getLsbD (r % 64) else s.bit m' r := by
  simp only [bit, update]
  split_ifs <;> rfl

theorem bit_setValid (s : Masks) (m m' : MaskId) (row r : ℕ) :
    (s.step (.setValid m row)).bit m' r = true ↔ s.bit m' r = true ∨ (m' = m ∧ r = row) := by
  rw [step, bit_update]
  by_cases hm : m' = m ∧ r / 64 = row / 64
  · obtain ⟨rfl, hdiv⟩ := hm
    have hrow : r = row ↔ row % 64 = r % 64 := by omega
    rw [if_pos ⟨rfl, hdiv⟩, BitVec.getLsbD_or, ← BitVec.twoPow_eq, BitVec.getLsbD_twoPow, bit, hdiv, hrow]
    simp only [Bool.or_eq_true, Bool.and_eq_true, decide_eq_true_eq, true_and]
    exact or_congr_right ⟨fun h => h.2, fun h => ⟨by omega, h⟩⟩
  · rw [if_neg hm]
    exact (or_iff_left fun h => hm ⟨h.1, by rw [h.2]⟩).symm

end Masks

/-- `SetEntryRangeInvalid`: clears the bits from `beginIdx` of `beginEntry` to `endIdx` of `endEntry`. With `endIdx =
    0` the last entry, which may be past the end, is written as it is. -/
def setEntryRangeInvalid (m : MaskId) (beginEntry beginIdx endEntry endIdx : ℕ) : List MaskStep :=
  let beginMask := if beginIdx = 0 then 0 else BitVec.allOnes 64 >>> (64 - beginIdx)
  let endMask := BitVec.allOnes 64 <<< endIdx
  if beginEntry = endEntry then [.keep m beginEntry (beginMask ||| endMask)]
  else
    [.keep m beginEntry beginMask, .keep m endEntry endMask] ++
      (range' (beginEntry + 1) (endEntry - (beginEntry + 1))).map fun i => .store m i 0

/-- `EntryCount`: the entries it takes for `count` bits. -/
def entryCount (count : ℕ) : ℕ := (count + 63) / 64

/-- `SetRangeInvalid`: the entries are cleared, up to the `count` bits of the mask. -/
def setRangeInvalid (count : ℕ) (m : MaskId) (beginEntry endEntry : ℕ) : List MaskStep := if count = 0 then []
  else
    let last := entryCount count - 1
    ((range' beginEntry (min last endEntry - beginEntry)).map fun i => .store m i 0) ++ if endEntry ≤ last then []
      else [.store m last (if count % 64 = 0 then 0 else BitVec.allOnes 64 <<< (count % 64))]

/-! ### The bits cleared -/

theorem getLsbD_beginMask {b j : ℕ} (hb : b < 64) :
    (if b = 0 then (0 : BitVec 64) else BitVec.allOnes 64 >>> (64 - b)).getLsbD j = true ↔ j < b := by
  split_ifs with h
  · simp [h]
  · rw [BitVec.getLsbD_ushiftRight, BitVec.getLsbD_allOnes, decide_eq_true_eq]
    omega

theorem getLsbD_endMask {e j : ℕ} (hj : j < 64) : (BitVec.allOnes 64 <<< e).getLsbD j = true ↔ e ≤ j := by
  rw [BitVec.getLsbD_shiftLeft, BitVec.getLsbD_allOnes]
  simp only [Bool.and_eq_true, decide_eq_true_eq, Bool.not_eq_true', decide_eq_false_iff_not]
  omega

section

variable (s : Masks) (m m' : MaskId) (i r : ℕ) (v : BitVec 64)

theorem Masks.bit_keep :
    (s.step (.keep m i v)).bit m' r = true ↔
      s.bit m' r = true ∧ (m' = m → r / 64 = i → v.getLsbD (r % 64) = true) := by
  rw [step, bit_update]
  split_ifs with h
  · obtain ⟨rfl, rfl⟩ := h
    simp [bit]
  · exact (and_iff_left fun h₁ h₂ => absurd ⟨h₁, h₂⟩ h).symm

theorem Masks.bit_store :
    (s.step (.store m i v)).bit m' r = if m' = m ∧ r / 64 = i then v.getLsbD (r % 64) else s.bit m' r := by
  rw [step, bit_update]

end

/-- Storing zeros clears the bits of the entries. -/
theorem Masks.bit_run_store (s : Masks) (m m' : MaskId) (r : ℕ) (l : List ℕ) :
    (s.run (l.map fun i => .store m i 0)).bit m' r = true ↔ s.bit m' r = true ∧ ¬(m' = m ∧ r / 64 ∈ l) := by
  induction l generalizing s with
  | nil => simp
  | cons i l ih =>
    rw [map_cons, run_cons, ih, bit_store, mem_cons]
    split_ifs with h
    · simp [h]
    · exact and_congr_right fun _ => not_congr ⟨fun h' => ⟨h'.1, .inr h'.2⟩,
        fun h' => ⟨h'.1, h'.2.resolve_left fun h₂ => h ⟨h'.1, h₂⟩⟩⟩

theorem Masks.bit_setEntryRangeInvalid (s : Masks) (m m' : MaskId) {b e : ℕ} (h : b ≤ e) (r : ℕ) :
    (s.run (setEntryRangeInvalid m (b / 64) (b % 64) (e / 64) (e % 64))).bit m' r = true ↔
      s.bit m' r = true ∧ ¬(m' = m ∧ b ≤ r ∧ r < e) := by
  have hr : r % 64 < 64 := Nat.mod_lt _ (by decide)
  have hb : b % 64 < 64 := Nat.mod_lt _ (by decide)
  simp only [setEntryRangeInvalid]
  by_cases hent : b / 64 = e / 64
  · rw [if_pos hent, run_cons, run_nil, bit_keep, BitVec.getLsbD_or, Bool.or_eq_true,
      getLsbD_beginMask hb, getLsbD_endMask hr]
    refine and_congr_right fun _ => ⟨fun h' ⟨hm, h₁, h₂⟩ => ?_, fun h' hm hi => ?_⟩
    · have := h' hm (by omega)
      omega
    · have hout : ¬(b ≤ r ∧ r < e) := fun h => h' ⟨hm, h⟩
      omega
  · rw [if_neg hent, run_append, run_cons, run_cons, run_nil, bit_run_store, bit_keep, bit_keep,
      getLsbD_beginMask hb, getLsbD_endMask hr, mem_range'_1, and_assoc, and_assoc]
    refine and_congr_right fun _ => ⟨fun ⟨h₁, h₂, h₃⟩ ⟨hm, h₄, h₅⟩ => ?_, fun h' => ?_⟩
    · rcases Nat.lt_trichotomy (r / 64) (b / 64) with h₆ | h₆ | h₆
      · omega
      · have := h₁ hm h₆
        omega
      · rcases Nat.lt_or_ge (r / 64) (e / 64) with h₇ | h₇
        · exact h₃ ⟨hm, by omega, by omega⟩
        · have := h₂ hm (by omega)
          omega
    · refine ⟨fun hm hi => ?_, fun hm hi => ?_, fun ⟨hm, hi⟩ => h' ⟨hm, by omega, by omega⟩⟩
      iterate 2
        · by_contra hlt
          exact h' ⟨hm, by omega, by omega⟩

/-- The entry of a mask that a step reads and writes. -/
def MaskStep.entry : MaskStep → Option (MaskId × ℕ)
  | .store m i _ => some (m, i)
  | .keep m i _ => some (m, i)
  | .setValid m row => some (m, row / 64)
  | .pushBegin _ _ => none

/-- The steps clear exactly the bits of a mask from `b` to `e`, and only touch entries of its `count`
    bits. -/
structure ClearsRange (count : ℕ) (m : MaskId) (b e : ℕ) (steps : List MaskStep) : Prop where
  entry_lt : ∀ a ∈ steps, ∀ p ∈ a.entry, p.2 < entryCount count
  bit : ∀ (s : Masks) (m' : MaskId) (r : ℕ), (s.run steps).bit m' r = true ↔
    s.bit m' r = true ∧ ¬(m' = m ∧ b ≤ r ∧ r < e)

/-- The last entry that is touched is the one of the end. -/
theorem entry_le_of_mem_setEntryRangeInvalid {m : MaskId} {b e : ℕ} (h : b ≤ e) {a : MaskStep}
    (ha : a ∈ setEntryRangeInvalid m (b / 64) (b % 64) (e / 64) (e % 64)) {p : MaskId × ℕ}
    (hp : p ∈ a.entry) : p.2 ≤ e / 64 := by
  have hdiv : b / 64 ≤ e / 64 := Nat.div_le_div_right h
  simp only [setEntryRangeInvalid] at ha
  by_cases hent : b / 64 = e / 64
  · rw [if_pos hent, mem_singleton] at ha
    subst ha
    obtain rfl := Option.some.inj hp
    exact hdiv
  · rw [if_neg hent, mem_append, mem_cons, mem_singleton, mem_map] at ha
    rcases ha with (rfl | rfl) | ⟨i, hi, rfl⟩
    · obtain rfl := Option.some.inj hp
      exact hdiv
    · obtain rfl := Option.some.inj hp
      exact le_rfl
    · obtain rfl := Option.some.inj hp
      rw [mem_range'_1] at hi
      omega

theorem exists_entry_setEntryRangeInvalid (m : MaskId) (b e : ℕ) :
    ∃ a ∈ setEntryRangeInvalid m (b / 64) (b % 64) (e / 64) (e % 64), (m, e / 64) ∈ a.entry := by
  simp only [setEntryRangeInvalid]
  by_cases hent : b / 64 = e / 64
  · rw [if_pos hent]
    exact ⟨_, mem_singleton_self _, by rw [hent]; rfl⟩
  · rw [if_neg hent]
    exact ⟨_, mem_append_left _ (mem_cons_of_mem _ mem_cons_self), rfl⟩

/-- Behind a mask that fills its entries, an entry is touched by a range that ends with it. -/
theorem clearsRange_iff {count b e : ℕ} (m : MaskId) (_hcount : 1 ≤ count) (hbe : b ≤ e) (he : e ≤ count) :
    ClearsRange count m b e (setEntryRangeInvalid m (b / 64) (b % 64) (e / 64) (e % 64)) ↔
      e < count ∨ count % 64 ≠ 0 := by
  constructor
  · intro h
    obtain ⟨a, ha, hent⟩ := exists_entry_setEntryRangeInvalid m b e
    have hlt := h.entry_lt a ha _ hent
    rw [entryCount] at hlt
    omega
  · intro h
    have hlst : e / 64 < entryCount count := by
      rw [entryCount]
      omega
    exact ⟨fun a ha p hp => (entry_le_of_mem_setEntryRangeInvalid hbe ha hp).trans_lt hlst,
      fun s m' r => Masks.bit_setEntryRangeInvalid s m m' hbe r⟩

theorem clearsRange_shared : ClearsRange 100 .partition 70 100 (setEntryRangeInvalid .partition 1 6 1 36) ↔
    100 < 100 ∨ 100 % 64 ≠ 0 :=
  clearsRange_iff .partition (by decide) (by decide : 70 ≤ 100) le_rfl

/-- A full entry is the whole mask. -/
theorem not_clearsRange_full : ¬ClearsRange 64 .partition 0 64 (setEntryRangeInvalid .partition 0 0 1 0) := by
  intro h
  have hlt := h.entry_lt (.keep .partition 1 (BitVec.allOnes 64 <<< 0)) (by decide) (.partition, 1) rfl
  exact absurd hlt (by decide)

/-- The bits of the entries from `b` to `e` are cleared, up to `count`. -/
theorem Masks.bit_setRangeInvalid (s : Masks) (m m' : MaskId) {count b e r : ℕ} (hr : r < count)
    (hbe : b < e) (he : e ≤ entryCount count) :
    (s.run (setRangeInvalid count m b e)).bit m' r = true ↔
      s.bit m' r = true ∧ ¬(m' = m ∧ b ≤ r / 64 ∧ r / 64 < e) := by
  have hr' : r % 64 < 64 := Nat.mod_lt _ (by decide)
  obtain ⟨last, hlst⟩ : ∃ last, last = entryCount count - 1 := ⟨_, rfl⟩
  rw [setRangeInvalid, if_neg (by omega)]
  simp only [← hlst]
  rw [run_append]
  by_cases hle : e ≤ last
  · rw [if_pos hle, run_nil, bit_run_store, mem_range'_1]
    refine and_congr_right fun _ => not_congr (and_congr_right fun _ => ?_)
    omega
  · have hbits : (if count % 64 = 0 then (0 : BitVec 64)
        else BitVec.allOnes 64 <<< (count % 64)).getLsbD (r % 64) = true → r / 64 ≠ last := by
      intro hbit hr''
      rw [hlst, entryCount] at hr''
      split_ifs at hbit
      · simp at hbit
      · rw [getLsbD_endMask hr'] at hbit
        omega
    rw [if_neg hle, run_cons, run_nil, bit_store]
    by_cases hm : m' = m ∧ r / 64 = last
    · rw [if_pos hm]
      exact iff_of_false (fun h => hbits h hm.2) fun h => h.2 ⟨hm.1, by omega, by omega⟩
    · rw [if_neg hm, bit_run_store, mem_range'_1]
      refine and_congr_right fun _ => not_congr (and_congr_right fun hm' => ?_)
      have : r / 64 ≠ last := fun h => hm ⟨hm', h⟩
      omega

/-! ## The delta scan -/

/-- `VectorOperations::DistinctFrom`: the positions of `sel` that differ, those of each column in turn, and those that
    do not. -/
def distinctFrom (differs : ℕ → ℕ → Bool) : List ℕ → List ℕ → List ℕ × List ℕ
  | [], sel => ([], sel)
  | c :: cols, sel =>
    let r := distinctFrom differs cols (sel.filter fun i => !differs c i)
    (sel.filter (differs c) ++ r.1, r.2)

/-- The rows of a group whose masks are computed. -/
structure MaskedRows (V : Type*) extends ChunkedRows where
  /-- The value of a row in a sort column. A `NULL` is a value of its own. -/
  value : ℕ → ℕ → V
  /-- The number of `PARTITION BY` columns, the first of the sort columns. -/
  partitionCount : ℕ
  /-- The numbers of sort columns the order masks compare (the keys of
      `order_masks`). -/
  orderColumns : List ℕ
  partitionCount_le : ∀ o ∈ orderColumns, partitionCount ≤ o
  /-- The group is sorted. -/
  sort : Bool

/-- The rows of `curr` from `rowIdx` on are compared with those of `prev`. -/
structure DeltaCall where
  rowIdx : ℕ
  prev : List ℕ
  curr : List ℕ
  count : ℕ
  block : ℕ

/-- The call compares rows with the ones right before them. -/
structure DeltaCall.Adjacent (call : DeltaCall) : Prop where
  length_eq : min call.prev.length call.curr.length = call.count
  curr_eq : ∀ i < call.count, call.curr.getD i 0 = call.rowIdx + i
  prev_eq : ∀ i < call.count, call.prev.getD i 0 = call.rowIdx + i - 1

namespace MaskedRows

variable {V : Type*} (g : MaskedRows V)

/-- The rows of a chunk. -/
def rowsOf (c : ℕ) : List ℕ := range' (g.position c) (g.chunkSize c)

/-- The loop of `WindowDeltaScanner`, with the chunk `blockCurr` scanned. -/
def deltaLoop (blockEnd blockCurr : ℕ) (boundaryCompare : Bool) (rowIdx : ℕ) : List DeltaCall :=
  if blockCurr < blockEnd then
    match boundaryCompare with
    | true =>
      -- The last row of the chunk, and the first one of the next.
      let prev := (g.rowsOf blockCurr).drop (g.chunkSize blockCurr - 1)
      let rowIdx := g.position (blockCurr + 1)
      if blockEnd ≤ blockCurr + 1 ∨ g.chunks.length ≤ blockCurr + 1 then []
      else
        ⟨rowIdx, prev, g.rowsOf (blockCurr + 1), 1, blockCurr + 1⟩ ::
          deltaLoop blockEnd (blockCurr + 1) false (rowIdx + 1)
    | false =>
      -- The rows of the chunk from the second one on, and those before them.
      let count := g.chunkSize blockCurr - 1
      if count = 0 then deltaLoop blockEnd blockCurr true rowIdx
      else
        ⟨rowIdx, g.rowsOf blockCurr, (g.rowsOf blockCurr).drop 1, count, blockCurr⟩ ::
          deltaLoop blockEnd blockCurr true (rowIdx + count)
  else []
termination_by (blockEnd - blockCurr, if boundaryCompare then 0 else 1)

/-- `WindowDeltaScanner`: the calls for the blocks from `blockBegin` to `blockEnd`, starting one block back. -/
def windowDeltaScanner (blockBegin blockEnd : ℕ) : List DeltaCall := if g.count = 0 then []
  else g.deltaLoop blockEnd (blockBegin - 1) (0 < blockBegin) 1

variable [DecidableEq V]

/-- The comparison of the rows of a call at the position `i`, in a column. -/
def callDiffers (call : DeltaCall) (c i : ℕ) : Bool :=
  decide (g.value (call.curr.getD i 0) c ≠ g.value (call.prev.getD i 0) c)

/-- The rows at the positions that differ in a `PARTITION BY` column are marked in
    all masks. -/
def markPartitions (setBegins : Bool) (call : DeltaCall) (distinct : List ℕ) : List MaskStep :=
  distinct.flatMap fun i =>
    [.setValid .partition (call.rowIdx + i)] ++
      (if setBegins then [.pushBegin call.block (call.rowIdx + i)] else []) ++
      g.orderColumns.map fun o => .setValid (.order o) (call.rowIdx + i)

/-- Those of the first `nmatch` positions of `matching` that differ in an order column are marked. -/
def markPeers (call : DeltaCall) (matching : List ℕ) (nmatch o : ℕ) : List MaskStep :=
  if g.partitionCount = o then []
  else
    (distinctFrom (fun c i => g.callDiffers call c (matching.getD i 0))
      (range' g.partitionCount (o - g.partitionCount)) (range nmatch)).1.map
        fun i => .setValid (.order o) (call.rowIdx + matching.getD i 0)

/-- The operation of the delta scan: the bits of the rows that differ from the
    previous one are set. -/
def markDistinct (setBegins : Bool) (call : DeltaCall) : List MaskStep :=
  let r := distinctFrom (g.callDiffers call) (range g.partitionCount) (range call.count)
  let matching := if r.1 = [] then range call.count else r.2
  let nmatch := min call.prev.length call.curr.length - r.1.length
  if nmatch = 0 then g.markPartitions setBegins call r.1
  else
    g.markPartitions setBegins call r.1 ++ g.orderColumns.flatMap (g.markPeers call matching nmatch)

/-- All masks of the group. -/
def maskIds : List MaskId := .partition :: g.orderColumns.map .order

/-- The bits of the range are cleared by `clear` in all masks, and that of the
    first row of the group is set. -/
def initialise (clear : MaskId → List MaskStep) (blockBegin : ℕ) : List MaskStep :=
  g.maskIds.flatMap fun m => clear m ++ if blockBegin = 0 then [.setValid m 0] else []

/-- The rows of the blocks that start a partition or a group of peers get their bits: without sorting, only the first
    row. -/
def markBlocks (setBegins : Bool) (blockBegin blockEnd : ℕ) : List MaskStep :=
  if g.sort then (g.windowDeltaScanner blockBegin blockEnd).flatMap (g.markDistinct setBegins)
  else []

/-- The array `block_sums`: the number of rows up to a block. -/
def blockSums (c : ℕ) : ℕ := (g.chunks.take (c + 1)).sum

/-- The writes of `ComputeMasksForSmallRuns`. -/
def computeMasksForSmallRuns (setBegins : Bool) (blockBegin blockEnd : ℕ) : List MaskStep :=
  let beginCount := if blockBegin = 0 then 0 else g.blockSums (blockBegin - 1)
  let endCount := g.blockSums (blockEnd - 1)
  g.initialise (fun m => setEntryRangeInvalid m (beginCount / 64) (beginCount % 64) (endCount / 64)
    (endCount % 64)) blockBegin ++ g.markBlocks setBegins blockBegin blockEnd

/-- The writes of `ComputeMasks`. -/
def computeMasks (setBegins : Bool) (blockBegin blockEnd : ℕ) : List MaskStep :=
  let beginEntry := entryCount (blockBegin * standardVectorSize)
  let endEntry := entryCount (min (blockEnd * standardVectorSize) g.count)
  if endEntry ≤ beginEntry then []
  else
    g.initialise (fun m => setRangeInvalid g.count m beginEntry endEntry) blockBegin ++
      g.markBlocks setBegins blockBegin blockEnd

/-! ## The rows compared -/

section Distinct

variable {differs : ℕ → ℕ → Bool} {cols sel : List ℕ} {i : ℕ}

theorem mem_distinctFrom_fst : i ∈ (distinctFrom differs cols sel).1 ↔ i ∈ sel ∧ ∃ c ∈ cols, differs c i = true := by
  induction cols generalizing sel with
  | nil => simp [distinctFrom]
  | cons c cols ih =>
    simp only [distinctFrom, mem_append, mem_filter, ih, exists_mem_cons_iff]
    cases differs c i <;> simp

theorem mem_distinctFrom_snd :
    i ∈ (distinctFrom differs cols sel).2 ↔ i ∈ sel ∧ ∀ c ∈ cols, differs c i = false := by
  induction cols generalizing sel with
  | nil => simp [distinctFrom]
  | cons c cols ih =>
    simp only [distinctFrom, mem_filter, ih, forall_mem_cons, and_assoc, Bool.not_eq_true']

theorem length_distinctFrom :
    (distinctFrom differs cols sel).1.length + (distinctFrom differs cols sel).2.length = sel.length := by
  induction cols generalizing sel with
  | nil => simp [distinctFrom]
  | cons c cols ih =>
    have hsum := length_eq_length_filter_add (l := sel) (differs c)
    have := @ih (sel.filter fun i => !differs c i)
    simp only [distinctFrom, length_append]
    omega

/-- Where nothing differs, all positions are left. -/
theorem distinctFrom_snd_of_nil (h : (distinctFrom differs cols sel).1 = []) :
    (distinctFrom differs cols sel).2 = sel := by
  induction cols generalizing sel with
  | nil => rfl
  | cons c cols ih =>
    simp only [distinctFrom, append_eq_nil_iff, filter_eq_nil_iff] at h ⊢
    have hall : sel.filter (fun i => !differs c i) = sel := filter_eq_self.2 fun j hj => by simpa using h.1 j hj
    rw [hall] at h ⊢
    exact ih h.2

end Distinct

/-! ### The operation -/

/-- The number of sort columns a mask compares. -/
def columns : MaskId → ℕ
  | .partition => g.partitionCount
  | .order o => o

/-- The row differs from the one before it in the first `n` sort columns. -/
def DiffersFromPrevious (n r : ℕ) : Prop := ∃ c < n, g.value r c ≠ g.value (r - 1) c

variable {g} {call : DeltaCall}

omit [DecidableEq V] in
theorem DiffersFromPrevious.mono {n n' r : ℕ} (h : g.DiffersFromPrevious n r) (hn : n ≤ n') :
    g.DiffersFromPrevious n' r := by
  obtain ⟨c, hc, hne⟩ := h
  exact ⟨c, hc.trans_le hn, hne⟩

section Mark

theorem callDiffers_iff (h : call.Adjacent) {c i : ℕ} (hi : i < call.count) : g.callDiffers call c i = true ↔
      g.value (call.rowIdx + i) c ≠ g.value (call.rowIdx + i - 1) c := by
  rw [callDiffers, decide_eq_true_eq, h.curr_eq i hi, h.prev_eq i hi]

/-- The positions that differ in a `PARTITION BY` column. -/
theorem mem_partition_iff (h : call.Adjacent) {i : ℕ} :
    i ∈ (distinctFrom (g.callDiffers call) (range g.partitionCount) (range call.count)).1 ↔
      i < call.count ∧ g.DiffersFromPrevious g.partitionCount (call.rowIdx + i) := by
  rw [mem_distinctFrom_fst, mem_range]
  refine and_congr_right fun hi => ?_
  simp only [mem_range, callDiffers_iff h hi, DiffersFromPrevious]

/-- The positions that differ in no `PARTITION BY` column. -/
theorem mem_matching_iff (h : call.Adjacent) {r : List ℕ × List ℕ}
    (hr : r = distinctFrom (g.callDiffers call) (range g.partitionCount) (range call.count)) {i : ℕ} :
    i ∈ (if r.1 = [] then range call.count else r.2).take
        (min call.prev.length call.curr.length - r.1.length) ↔
      i < call.count ∧ ¬g.DiffersFromPrevious g.partitionCount (call.rowIdx + i) := by
  have hlen : r.1.length + r.2.length = call.count := by
    rw [hr, length_distinctFrom, length_range]
  have hmatch : (if r.1 = [] then range call.count else r.2) = r.2 := by
    split_ifs with hnil
    · rw [hr] at hnil ⊢
      exact (distinctFrom_snd_of_nil hnil).symm
    · rfl
  rw [hmatch, h.length_eq, take_of_length_le (by omega), hr, mem_distinctFrom_snd, mem_range]
  refine and_congr_right fun hi => ?_
  simp only [DiffersFromPrevious, mem_range, not_exists, not_and]
  refine forall₂_congr fun c _ => ?_
  rw [← callDiffers_iff h hi, Bool.not_eq_true]

/-- The positions that differ in an order column but in no `PARTITION BY` column. -/
theorem mem_peers_iff (h : call.Adjacent) {o row : ℕ} (ho : g.partitionCount ≤ o)
    {matching : List ℕ} (hm : matching = (distinctFrom (g.callDiffers call)
      (range g.partitionCount) (range call.count)).2) :
    (∃ i ∈ (distinctFrom (fun c i => g.callDiffers call c (matching.getD i 0))
        (range' g.partitionCount (o - g.partitionCount)) (range matching.length)).1,
      call.rowIdx + matching.getD i 0 = row) ↔
      call.rowIdx ≤ row ∧ row < call.rowIdx + call.count ∧
        ¬g.DiffersFromPrevious g.partitionCount row ∧ g.DiffersFromPrevious o row := by
  have hmatch : ∀ j, j ∈ matching ↔ j < call.count ∧ ¬g.DiffersFromPrevious g.partitionCount (call.rowIdx + j) := by
    intro j
    rw [hm, mem_distinctFrom_snd, mem_range]
    refine and_congr_right fun hj => ?_
    simp only [DiffersFromPrevious, not_exists, not_and, mem_range, ← callDiffers_iff h hj, Bool.not_eq_true]
  constructor
  · rintro ⟨i, hi, rfl⟩
    rw [mem_distinctFrom_fst, mem_range] at hi
    obtain ⟨hlt, c, hc, hdiff⟩ := hi
    have hmem : matching.getD i 0 ∈ matching := by
      rw [getD_eq_getElem _ _ hlt]
      exact getElem_mem hlt
    obtain ⟨hcnt, hnot⟩ := (hmatch _).1 hmem
    rw [mem_range'_1] at hc
    exact ⟨Nat.le_add_right _ _, Nat.add_lt_add_left hcnt _, hnot, c, by omega, (callDiffers_iff h hcnt).1 hdiff⟩
  · rintro ⟨hle, hlt, hnot, c, hc, hdiff⟩
    obtain ⟨j, rfl⟩ := Nat.exists_eq_add_of_le hle
    have hj : j < call.count := Nat.lt_of_add_lt_add_left hlt
    obtain ⟨i, hi, hij⟩ := mem_iff_getElem.1 ((hmatch j).2 ⟨hj, hnot⟩)
    have hget : matching.getD i 0 = j := by rw [getD_eq_getElem _ _ hi, hij]
    have hpc : g.partitionCount ≤ c := not_lt.1 fun hlt => hnot ⟨c, hlt, hdiff⟩
    refine ⟨i, mem_distinctFrom_fst.2 ⟨mem_range.2 hi, c, ?_, ?_⟩, by rw [hget]⟩
    · rw [mem_range'_1]
      omega
    · rw [hget]
      exact (callDiffers_iff h hj).2 hdiff

omit [DecidableEq V] in
theorem mem_markPartitions {setBegins : Bool} {m : MaskId} (hm : m ∈ g.maskIds) {row : ℕ} {distinct : List ℕ} :
    .setValid m row ∈ g.markPartitions setBegins call distinct ↔ ∃ i ∈ distinct, call.rowIdx + i = row := by
  have hpush : ∀ i, MaskStep.setValid m row ∉
      if setBegins then [MaskStep.pushBegin call.block (call.rowIdx + i)] else [] := by
    intro i
    split_ifs <;> simp
  simp only [maskIds, mem_cons, mem_map] at hm
  simp only [markPartitions, mem_flatMap, mem_append, hpush, mem_singleton,
    mem_map, MaskStep.setValid.injEq, or_false]
  refine exists_congr fun i => and_congr_right fun _ => ⟨?_, fun h => ?_⟩
  · rintro (⟨-, h⟩ | ⟨o, -, -, h⟩)
    · exact h.symm
    · exact h
  · rcases hm with rfl | ⟨o, ho, rfl⟩
    · exact .inl ⟨rfl, h.symm⟩
    · exact .inr ⟨o, ho, rfl, h⟩

/-- The bits a call sets: those of the rows compared that differ from the previous
    one. -/
theorem mem_markDistinct (h : call.Adjacent) {setBegins : Bool} {m : MaskId} (hm : m ∈ g.maskIds) {row : ℕ} :
    .setValid m row ∈ g.markDistinct setBegins call ↔ call.rowIdx ≤ row ∧ row < call.rowIdx + call.count ∧
        g.DiffersFromPrevious (g.columns m) row := by
  obtain ⟨r, hr⟩ : ∃ r, r = distinctFrom (g.callDiffers call) (range g.partitionCount)
    (range call.count) := ⟨_, rfl⟩
  have hpart : .setValid m row ∈ g.markPartitions setBegins call r.1 ↔
      call.rowIdx ≤ row ∧ row < call.rowIdx + call.count ∧ g.DiffersFromPrevious g.partitionCount row := by
    rw [mem_markPartitions hm]
    simp only [hr, mem_partition_iff h]
    constructor
    · rintro ⟨i, ⟨hi, hd⟩, rfl⟩
      exact ⟨Nat.le_add_right _ _, Nat.add_lt_add_left hi _, hd⟩
    · rintro ⟨hle, hlt, hd⟩
      obtain ⟨i, rfl⟩ := Nat.exists_eq_add_of_le hle
      exact ⟨i, ⟨Nat.lt_of_add_lt_add_left hlt, hd⟩, rfl⟩
  have hmatch : (if r.1 = [] then range call.count else r.2) = r.2 := by
    split_ifs with hnil
    · rw [hr] at hnil ⊢
      exact (distinctFrom_snd_of_nil hnil).symm
    · rfl
  have hlen : min call.prev.length call.curr.length - r.1.length = r.2.length := by
    have := @length_distinctFrom (g.callDiffers call) (range g.partitionCount)
      (range call.count)
    rw [← hr, length_range] at this
    rw [h.length_eq]
    omega
  -- The rows that start a group of peers within a partition.
  have hprs : ∀ o, g.partitionCount ≤ o → (.setValid m row ∈ g.markPeers call r.2 r.2.length o ↔ m = .order o ∧
        call.rowIdx ≤ row ∧ row < call.rowIdx + call.count ∧
          ¬g.DiffersFromPrevious g.partitionCount row ∧ g.DiffersFromPrevious o row) := by
    intro o ho
    rw [← mem_peers_iff h ho (congrArg Prod.snd hr), markPeers]
    split_ifs with heq
    · have hnil : range' g.partitionCount (o - g.partitionCount) = [] := by simp [heq]
      simp [hnil, distinctFrom]
    · simp only [mem_map, MaskStep.setValid.injEq]
      exact ⟨fun ⟨i, hi, hm, h⟩ => ⟨hm.symm, i, hi, h⟩, fun ⟨hm, i, hi, h⟩ => ⟨i, hi, hm.symm, h⟩⟩
  have hall : .setValid m row ∈ g.markDistinct setBegins call ↔
      .setValid m row ∈ g.markPartitions setBegins call r.1 ∨
        ∃ o ∈ g.orderColumns, .setValid m row ∈ g.markPeers call r.2 r.2.length o := by
    simp only [markDistinct, ← hr, hmatch, hlen]
    split_ifs with hz
    · have hno : ∀ o, g.markPeers call r.2 r.2.length o = [] := by
        intro o
        rw [markPeers, hz]
        split_ifs
        · rfl
        · rw [map_eq_nil_iff]
          exact eq_nil_iff_forall_not_mem.2 fun i hi => by
            simpa using (mem_distinctFrom_fst.1 hi).1
      simp [hno]
    · rw [mem_append, mem_flatMap]
  rw [hall, hpart]
  constructor
  · rintro (⟨h₁, h₂, h₃⟩ | ⟨o, ho, hstep⟩)
    · refine ⟨h₁, h₂, h₃.mono ?_⟩
      simp only [maskIds, mem_cons, mem_map] at hm
      rcases hm with rfl | ⟨o, ho, rfl⟩
      · exact le_rfl
      · exact g.partitionCount_le o ho
    · obtain ⟨rfl, h₁, h₂, -, h₃⟩ := (hprs o (g.partitionCount_le o ho)).1 hstep
      exact ⟨h₁, h₂, h₃⟩
  · rintro ⟨h₁, h₂, h₃⟩
    simp only [maskIds, mem_cons, mem_map] at hm
    rcases hm with rfl | ⟨o, ho, rfl⟩
    · exact .inl ⟨h₁, h₂, h₃⟩
    · by_cases hp : g.DiffersFromPrevious g.partitionCount row
      · exact .inl ⟨h₁, h₂, hp⟩
      · exact .inr ⟨o, ho, (hprs o (g.partitionCount_le o ho)).2 ⟨rfl, h₁, h₂, hp, h₃⟩⟩

end Mark

/-! ### The scan -/

/-- The rows compared by one of the calls. -/
def Compares (calls : List DeltaCall) (row : ℕ) : Prop :=
  ∃ call ∈ calls, call.rowIdx ≤ row ∧ row < call.rowIdx + call.count

theorem compares_cons {calls : List DeltaCall} {row : ℕ} : Compares (call :: calls) row ↔
      (call.rowIdx ≤ row ∧ row < call.rowIdx + call.count) ∨ Compares calls row := by
  simp [Compares]

omit [DecidableEq V] in
theorem getD_drop_rowsOf {c k i : ℕ} (h : k + i < g.chunkSize c) :
    ((g.rowsOf c).drop k).getD i 0 = g.position c + k + i := by
  rw [rowsOf, drop_range', getD_eq_getElem _ _ (by rw [length_range']; omega), getElem_range']
  omega

omit [DecidableEq V] in
theorem adjacent_boundary {c : ℕ} (hc : c + 1 < g.chunks.length) :
    DeltaCall.Adjacent ⟨g.position (c + 1), (g.rowsOf c).drop (g.chunkSize c - 1), g.rowsOf (c + 1), 1, c + 1⟩ := by
  have hsz : 0 < g.chunkSize c := ChunkedRows.chunkSize_pos (by omega)
  have hsz' : 0 < g.chunkSize (c + 1) := ChunkedRows.chunkSize_pos hc
  have hpos : g.position (c + 1) = g.position c + g.chunkSize c := ChunkedRows.position_succ (by omega)
  refine ⟨?_, fun i hi => ?_, fun i hi => ?_⟩
  · simp only [rowsOf, length_drop, length_range']
    omega
  · obtain rfl : i = 0 := Nat.lt_one_iff.1 hi
    exact getD_drop_rowsOf (k := 0) hsz'
  · obtain rfl : i = 0 := Nat.lt_one_iff.1 hi
    dsimp only
    rw [getD_drop_rowsOf (by omega)]
    omega

omit [DecidableEq V] in
theorem adjacent_within {c : ℕ} :
    DeltaCall.Adjacent ⟨g.position c + 1, g.rowsOf c, (g.rowsOf c).drop 1, g.chunkSize c - 1, c⟩ := by
  refine ⟨?_, fun i hi => ?_, fun i hi => ?_⟩
  · simp only [rowsOf, length_drop, length_range']
    omega
  · have hi' : 1 + i < g.chunkSize c := by dsimp only at hi; omega
    exact getD_drop_rowsOf hi'
  · have hi' : 0 + i < g.chunkSize c := by dsimp only at hi; omega
    refine (getD_drop_rowsOf hi').trans ?_
    dsimp only
    omega

omit [DecidableEq V] in
/-- The loop of the delta scan compares the rows up to the end of the blocks with the ones before. -/
theorem deltaLoop_spec {e c : ℕ} {boundary : Bool} {rowIdx : ℕ} (he : e ≤ g.chunks.length)
    (hc : c < e) (hrow : boundary = false → rowIdx = g.position c + 1) :
    (∀ call ∈ g.deltaLoop e c boundary rowIdx, call.Adjacent) ∧
      ∀ row, Compares (g.deltaLoop e c boundary rowIdx) row ↔
        (if boundary then g.position (c + 1) else g.position c + 1) ≤ row ∧ row < g.position e := by
  fun_induction deltaLoop g e c boundary rowIdx with
  | case1 c rowIdx _ hend =>
    have hlst : c + 1 = e := by omega
    refine ⟨fun call h => absurd h not_mem_nil, fun row => ?_⟩
    rw [if_pos rfl, hlst]
    simp [Compares]
  | case2 c rowIdx _ rowIdx' hend₁ hend₂ ih =>
    obtain ⟨h₁, h₂⟩ := ih (by omega) fun _ => rfl
    have hpos := ChunkedRows.position_succ (g := g.toChunkedRows)
      (show c + 1 < g.chunks.length by omega)
    have hmono := ChunkedRows.position_mono (g := g.toChunkedRows) (show c + 1 + 1 ≤ e by omega)
    have hsz := ChunkedRows.chunkSize_pos (g := g.toChunkedRows)
      (show c + 1 < g.chunks.length by omega)
    refine ⟨forall_mem_cons.2 ⟨adjacent_boundary (by omega), h₁⟩, fun row => ?_⟩
    rw [compares_cons, h₂, if_pos rfl, if_neg (by decide)]
    dsimp only [rowIdx']
    omega
  | case3 c rowIdx _ count hz ih =>
    obtain ⟨h₁, h₂⟩ := ih hc fun h => absurd h (by decide)
    have hpos := ChunkedRows.position_succ (g := g.toChunkedRows)
      (show c < g.chunks.length by omega)
    have hsz := ChunkedRows.chunkSize_pos (g := g.toChunkedRows)
      (show c < g.chunks.length by omega)
    refine ⟨h₁, fun row => ?_⟩
    rw [h₂, if_pos rfl, if_neg (by decide)]
    dsimp only [count] at hz
    omega
  | case4 c rowIdx _ count hz ih =>
    obtain ⟨h₁, h₂⟩ := ih hc fun h => absurd h (by decide)
    have hpos := ChunkedRows.position_succ (g := g.toChunkedRows)
      (show c < g.chunks.length by omega)
    have hmono := ChunkedRows.position_mono (g := g.toChunkedRows) (show c + 1 ≤ e by omega)
    obtain rfl := hrow rfl
    refine ⟨forall_mem_cons.2 ⟨adjacent_within, h₁⟩, fun row => ?_⟩
    rw [compares_cons, h₂, if_pos rfl, if_neg (by decide)]
    dsimp only [count] at hz ⊢
    omega
  | case5 c boundary rowIdx h => exact absurd hc h

omit [DecidableEq V] in
theorem position_pos {c : ℕ} (hc : 0 < c) (hlen : c ≤ g.chunks.length) : 0 < g.position c := by
  obtain ⟨c, rfl⟩ : ∃ n, c = n + 1 := ⟨c - 1, by omega⟩
  rw [ChunkedRows.position_succ (by omega)]
  exact Nat.add_pos_right _ (ChunkedRows.chunkSize_pos (by omega))

variable {b e : ℕ}

omit [DecidableEq V] in
/-- The delta scan compares the rows of the blocks with the ones before, but for
    the first row of the group. -/
theorem windowDeltaScanner_spec (hbe : b < e) (he : e ≤ g.chunks.length) :
    (∀ call ∈ g.windowDeltaScanner b e, call.Adjacent) ∧ ∀ row, Compares (g.windowDeltaScanner b e) row ↔
        1 ≤ row ∧ g.position b ≤ row ∧ row < g.position e := by
  have hcnt : g.count ≠ 0 := by
    rw [← ChunkedRows.position_length]
    exact (position_pos (by omega) le_rfl).ne'
  rw [windowDeltaScanner, if_neg hcnt]
  rcases Nat.eq_zero_or_pos b with rfl | hb
  · have hrow : decide (0 < 0) = false → 1 = g.position 0 + 1 := fun _ => rfl
    obtain ⟨h₁, h₂⟩ := deltaLoop_spec he hbe hrow
    refine ⟨h₁, fun row => (h₂ row).trans ?_⟩
    simp
  · have hrow : decide (0 < b) = false → 1 = g.position (b - 1) + 1 := by simp [hb]
    obtain ⟨h₁, h₂⟩ := deltaLoop_spec he (show b - 1 < e by omega) hrow
    refine ⟨h₁, fun row => (h₂ row).trans ?_⟩
    have hpos := position_pos hb (hbe.le.trans he)
    rw [if_pos (decide_eq_true hb), Nat.sub_add_cancel hb]
    omega

variable {setBegins : Bool} {m : MaskId}

theorem mem_markBlocks (hsort : g.sort = true) (hbe : b < e)
    (he : e ≤ g.chunks.length) (hm : m ∈ g.maskIds) {row : ℕ} :
    .setValid m row ∈ g.markBlocks setBegins b e ↔ (1 ≤ row ∧ g.position b ≤ row ∧ row < g.position e) ∧
        g.DiffersFromPrevious (g.columns m) row := by
  obtain ⟨hadj, hcmp⟩ := windowDeltaScanner_spec hbe he
  rw [markBlocks, if_pos hsort, mem_flatMap, ← hcmp]
  constructor
  · rintro ⟨call, hcall, hstep⟩
    obtain ⟨h₁, h₂, h₃⟩ := (mem_markDistinct (hadj call hcall) hm).1 hstep
    exact ⟨⟨call, hcall, h₁, h₂⟩, h₃⟩
  · rintro ⟨⟨call, hcall, h₁, h₂⟩, h₃⟩
    exact ⟨call, hcall, (mem_markDistinct (hadj call hcall) hm).2 ⟨h₁, h₂, h₃⟩⟩

/-! ## One task -/

/-- A step that sets a bit or extends the cache. -/
def Marks : MaskStep → Prop
  | .setValid _ _ => True
  | .pushBegin _ _ => True
  | _ => False

/-- Marks only add their bits. -/
theorem bit_run_marks {steps : List MaskStep} (h : ∀ a ∈ steps, Marks a) (s : Masks) (m : MaskId) (r : ℕ) :
    (s.run steps).bit m r = true ↔ s.bit m r = true ∨ .setValid m r ∈ steps := by
  induction steps generalizing s with
  | nil => simp
  | cons a steps ih =>
    rw [forall_mem_cons] at h
    rw [Masks.run_cons, ih h.2, mem_cons]
    cases a with
    | setValid m' row =>
      rw [Masks.bit_setValid, MaskStep.setValid.injEq, or_assoc]
    | pushBegin block row => simp [Masks.step, Masks.bit]
    | store m' i v => exact h.1.elim
    | keep m' i v => exact h.1.elim

theorem marks_markBlocks : ∀ a ∈ g.markBlocks setBegins b e, Marks a := by
  intro a ha
  rw [markBlocks] at ha
  split_ifs at ha
  · obtain ⟨call, -, ha⟩ := mem_flatMap.1 ha
    have hpart : ∀ distinct, a ∈ g.markPartitions setBegins call distinct → Marks a := by
      intro distinct ha
      simp only [markPartitions, mem_flatMap, mem_append, mem_singleton, mem_map] at ha
      obtain ⟨i, -, (rfl | ha) | ⟨o, -, rfl⟩⟩ := ha
      · trivial
      · split_ifs at ha
        · rw [mem_singleton.1 ha]
          trivial
        · exact absurd ha not_mem_nil
      · trivial
    have hprs : ∀ matching n, a ∈ g.orderColumns.flatMap (g.markPeers call matching n) → Marks a := by
      intro matching n ha
      obtain ⟨o, -, ha⟩ := mem_flatMap.1 ha
      rw [markPeers] at ha
      split_ifs at ha
      · exact absurd ha not_mem_nil
      · obtain ⟨i, -, rfl⟩ := mem_map.1 ha
        trivial
    simp only [markDistinct] at ha
    split_ifs at ha
    · exact hpart _ ha
    all_goals exact (mem_append.1 ha).elim (hpart _) (hprs _ _)
  · exact absurd ha not_mem_nil

omit [DecidableEq V] in
/-- Initialising clears the rows of the range in all masks, but for the first row
    of the group. -/
theorem bit_initialise {clear : MaskId → List MaskStep} {inside : Prop} {b r : ℕ}
    (hclear : ∀ s m m', (Masks.run s (clear m)).bit m' r = true ↔
      s.bit m' r = true ∧ ¬(m' = m ∧ inside)) (s : Masks) (hm : m ∈ g.maskIds) :
    (s.run (g.initialise clear b)).bit m r = true ↔ (s.bit m r = true ∧ ¬inside) ∨ (b = 0 ∧ r = 0) := by
  -- One mask.
  have hone : ∀ s m', (Masks.run s (clear m' ++ if b = 0 then [.setValid m' 0] else [])).bit m r =
      true ↔ (s.bit m r = true ∧ ¬(m = m' ∧ inside)) ∨ (m = m' ∧ b = 0 ∧ r = 0) := by
    intro s m'
    rw [Masks.run_append]
    split_ifs with hb
    · rw [Masks.run_cons, Masks.run_nil, Masks.bit_setValid, hclear]
      simp [hb]
    · rw [Masks.run_nil, hclear]
      simp [hb]
  -- All masks: those after the last one of the given name do not change it.
  have hall : ∀ (l : List MaskId) (s : Masks),
      (s.run (l.flatMap fun m => clear m ++ if b = 0 then [.setValid m 0] else [])).bit m r =
        true ↔ (s.bit m r = true ∧ ¬(m ∈ l ∧ inside)) ∨ (m ∈ l ∧ b = 0 ∧ r = 0) := by
    intro l
    induction l with
    | nil => simp
    | cons m' l ih =>
      intro s
      rw [flatMap_cons, Masks.run_append, ih, hone, mem_cons]
      by_cases h₁ : m = m' <;> by_cases h₂ : m ∈ l <;> simp only [h₁, h₂] <;> tauto
  rw [initialise, hall]
  simp [hm]

/-- The bits the masks are to have. -/
def IsStart (g : MaskedRows V) (m : MaskId) (r : ℕ) : Prop := r = 0 ∨ g.DiffersFromPrevious (g.columns m) r

/-- A task that clears the rows of its blocks marks them, and changes no other
    rows. -/
theorem bit_task (hsort : g.sort = true) {b e r : ℕ} (hbe : b < e)
    (he : e ≤ g.chunks.length) {clear : MaskId → List MaskStep}
    (hclear : ∀ s m m', (Masks.run s (clear m)).bit m' r = true ↔
      s.bit m' r = true ∧ ¬(m' = m ∧ g.position b ≤ r ∧ r < g.position e))
    (s : Masks) (hm : m ∈ g.maskIds) :
    (s.run (g.initialise clear b ++ g.markBlocks setBegins b e)).bit m r = true ↔
      if g.position b ≤ r ∧ r < g.position e then g.IsStart m r else s.bit m r = true := by
  have hpos := position_pos (g := g) (show 0 < e by omega) he
  have hz : b = 0 → g.position b = 0 := fun h => by rw [h]; rfl
  rw [Masks.run_append, bit_run_marks marks_markBlocks, bit_initialise hclear s hm,
    mem_markBlocks hsort hbe he hm, IsStart]
  split_ifs with hin
  · have hfst : r = 0 → b = 0 := by
      intro hr
      by_contra hb
      have := position_pos (g := g) (Nat.pos_of_ne_zero hb) (hbe.le.trans he)
      omega
    constructor
    · rintro ((⟨-, h⟩ | ⟨-, h⟩) | ⟨-, h⟩)
      · exact absurd hin h
      · exact .inl h
      · exact .inr h
    · intro h
      rcases Nat.eq_zero_or_pos r with hr | hr
      · exact .inl (.inr ⟨hfst hr, hr⟩)
      · exact .inr ⟨⟨hr, hin⟩, h.resolve_left hr.ne'⟩
  · constructor
    · rintro ((⟨h, -⟩ | ⟨hb, hr⟩) | ⟨⟨-, h⟩, -⟩)
      · exact h
      · exact absurd ⟨by rw [hz hb]; exact Nat.zero_le r, by omega⟩ hin
      · exact absurd h hin
    · exact fun h => .inl (.inl ⟨h, hin⟩)

theorem bit_computeMasksForSmallRuns (hsort : g.sort = true)
    (hbe : b < e) (he : e ≤ g.chunks.length) (s : Masks) (hm : m ∈ g.maskIds) (r : ℕ) :
    (s.run (g.computeMasksForSmallRuns setBegins b e)).bit m r = true ↔
      if g.position b ≤ r ∧ r < g.position e then g.IsStart m r else s.bit m r = true := by
  have hbeg : (if b = 0 then 0 else g.blockSums (b - 1)) = g.position b := by
    split_ifs with hb
    · rw [hb]
      rfl
    · rw [blockSums, Nat.sub_add_cancel (Nat.pos_of_ne_zero hb)]
      rfl
  have hend : g.blockSums (e - 1) = g.position e := by
    rw [blockSums, Nat.sub_add_cancel (by omega)]
    rfl
  simp only [computeMasksForSmallRuns, hbeg, hend]
  refine bit_task hsort hbe he (fun s m m' => ?_) s hm
  exact Masks.bit_setEntryRangeInvalid s m m' (ChunkedRows.position_mono hbe.le) r

/-- Every chunk but the last has `STANDARD_VECTOR_SIZE` rows, and the last one no
    more than that. -/
structure FullChunks (g : MaskedRows V) : Prop where
  full : ∀ c, c + 1 < g.chunks.length → g.chunkSize c = standardVectorSize
  last_le : ∀ c < g.chunks.length, g.chunkSize c ≤ standardVectorSize

omit [DecidableEq V] in
theorem FullChunks.position_eq (h : g.FullChunks) {c : ℕ} (hc : c < g.chunks.length) :
    g.position c = c * standardVectorSize := by
  induction c with
  | zero => simp
  | succ c ih =>
    rw [ChunkedRows.position_succ (by omega), ih (by omega), h.full c hc, Nat.succ_mul]

omit [DecidableEq V] in
theorem FullChunks.position_eq_min (h : g.FullChunks) {c : ℕ} (hc : 0 < c)
    (hlen : c ≤ g.chunks.length) : g.position c = min (c * standardVectorSize) g.count := by
  rcases hlen.lt_or_eq with hlt | rfl
  · have := ChunkedRows.position_mono (g := g.toChunkedRows) hlen
    rw [h.position_eq hlt, ← ChunkedRows.position_length, min_eq_left]
    rwa [← h.position_eq hlt]
  · obtain ⟨n, hn⟩ : ∃ n, g.chunks.length = n + 1 := ⟨g.chunks.length - 1, by omega⟩
    have hlst := h.last_le n (by omega)
    have hpos := h.position_eq (show n < g.chunks.length by omega)
    have hsucc := ChunkedRows.position_succ (g := g.toChunkedRows)
      (show n < g.chunks.length by omega)
    rw [ChunkedRows.position_length, min_eq_right]
    rw [← ChunkedRows.position_length, hn, hsucc, hpos, Nat.succ_mul]
    exact Nat.add_le_add_left hlst _

theorem bit_computeMasks (hsort : g.sort = true) (hfull : g.FullChunks)
    (hbe : b < e) (he : e ≤ g.chunks.length) (s : Masks) (hm : m ∈ g.maskIds) {r : ℕ}
    (hr : r < g.count) :
    (s.run (g.computeMasks setBegins b e)).bit m r = true ↔
      if g.position b ≤ r ∧ r < g.position e then g.IsStart m r else s.bit m r = true := by
  have hb := hfull.position_eq (show b < g.chunks.length by omega)
  have hmin := hfull.position_eq_min (show 0 < e by omega) he
  have hlt : g.position b < g.position e := by
    have := ChunkedRows.position_mono (g := g.toChunkedRows) (show b + 1 ≤ e by omega)
    have := ChunkedRows.chunkSize_pos (g := g.toChunkedRows) (show b < g.chunks.length by omega)
    rw [ChunkedRows.position_succ (by omega)] at *
    omega
  -- A task starts with an entry of its own, and ends with one, or with the group.
  have hbeg : g.position b = 64 * (32 * b) := by rw [hb, standardVectorSize]; omega
  have hend : g.position e = 64 * (32 * e) ∨ g.position e = g.count := by
    rw [hmin, standardVectorSize]
    omega
  simp only [computeMasks, ← hb, ← hmin]
  have hents : entryCount (g.position b) < entryCount (g.position e) := by
    simp only [entryCount]
    omega
  rw [if_neg (not_le.2 hents)]
  refine bit_task hsort hbe he (fun s m m' => ?_) s hm
  rw [Masks.bit_setRangeInvalid s m m' hr hents (by simp only [entryCount]; omega)]
  refine and_congr_right fun _ => not_congr (and_congr_right fun _ => ?_)
  simp only [entryCount]
  omega

/-! ## All tasks -/

/-- A division of the blocks into the ranges of the tasks: the task `i` has those from `cut i` to `cut (i + 1)`. -/
structure BlockDivision (g : MaskedRows V) where
  parts : ℕ
  cut : ℕ → ℕ
  cut_zero : cut 0 = 0
  cut_lt : ∀ i < parts, cut i < cut (i + 1)
  cut_last : cut parts = g.chunks.length

namespace BlockDivision

omit [DecidableEq V]

variable {d : g.BlockDivision}

/-- A sequence that gets beyond `b` does so in some step. -/
theorem exists_step {f : ℕ → ℕ} {n b : ℕ} (hz : f 0 ≤ b) (h : b < f n) : ∃ i < n, f i ≤ b ∧ b < f (i + 1) := by
  induction n with
  | zero => exact absurd h (not_lt.2 hz)
  | succ n ih =>
    by_cases hn : b < f n
    · obtain ⟨i, hi, hstep⟩ := ih hn
      exact ⟨i, Nat.lt_succ_of_lt hi, hstep⟩
    · exact ⟨n, Nat.lt_succ_self n, not_lt.1 hn, h⟩

theorem cut_mono {i j : ℕ} (hij : i ≤ j) (hj : j ≤ d.parts) : d.cut i ≤ d.cut j := by
  induction j, hij using Nat.le_induction with
  | base => exact le_rfl
  | succ j _ ih => exact (ih (by omega)).trans (d.cut_lt j (by omega)).le

theorem cut_le {i : ℕ} (hi : i ≤ d.parts) : d.cut i ≤ g.chunks.length := (cut_mono hi le_rfl).trans d.cut_last.le

/-- The row is one of the task `i`. -/
def Has (d : g.BlockDivision) (i r : ℕ) : Prop := g.position (d.cut i) ≤ r ∧ r < g.position (d.cut (i + 1))

/-- Every row is one of some task. -/
theorem exists_has {r : ℕ} (hr : r < g.count) : ∃ i < d.parts, d.Has i r := by
  refine exists_step (f := fun i => g.position (d.cut i)) ?_ ?_
  · rw [d.cut_zero]
    exact Nat.zero_le r
  · rwa [d.cut_last, ChunkedRows.position_length]

end BlockDivision

variable {d : g.BlockDivision}

open scoped Classical in
/-- The rows of the tasks that have run are marked, whatever the order. -/
theorem bit_run_smallRuns (hsort : g.sort = true)
    (hm : m ∈ g.maskIds) (r : ℕ) {l : List ℕ} (hl : ∀ i ∈ l, i < d.parts) (s : Masks) :
    (s.run (l.flatMap fun i =>
        g.computeMasksForSmallRuns setBegins (d.cut i) (d.cut (i + 1)))).bit m r = true ↔
      if ∃ i ∈ l, d.Has i r then g.IsStart m r else s.bit m r = true := by
  induction l generalizing s with
  | nil => simp
  | cons i l ih =>
    rw [forall_mem_cons] at hl
    rw [flatMap_cons, Masks.run_append, ih hl.2, bit_computeMasksForSmallRuns hsort
      (d.cut_lt i hl.1) (BlockDivision.cut_le hl.1) s hm]
    by_cases h₁ : ∃ j ∈ l, d.Has j r
    · obtain ⟨j, hj, hr⟩ := h₁
      rw [if_pos ⟨j, hj, hr⟩, if_pos ⟨j, mem_cons_of_mem i hj, hr⟩]
    · have hiff : d.Has i r ↔ ∃ j ∈ i :: l, d.Has j r := by
        rw [exists_mem_cons_iff]
        exact (or_iff_left h₁).symm
      rw [if_neg h₁]
      exact iff_of_eq (if_congr hiff rfl rfl)

/-- In whatever order the tasks of `ComputeMasksForSmallRuns` run, the masks are
    right after all of them have. -/
theorem computeMasksForSmallRuns_run (hsort : g.sort = true) (d : g.BlockDivision) (setBegins : Bool)
    {order : List ℕ} (hord : order.Perm (range d.parts)) (hm : m ∈ g.maskIds)
    {r : ℕ} (hr : r < g.count) :
    (Masks.allocate.run (order.flatMap fun i =>
        g.computeMasksForSmallRuns setBegins (d.cut i) (d.cut (i + 1)))).bit m r = true ↔
      g.IsStart m r := by
  obtain ⟨i, hi, hin⟩ := BlockDivision.exists_has (d := d) hr
  rw [bit_run_smallRuns hsort hm r fun j hj => mem_range.1 (hord.mem_iff.1 hj),
    if_pos ⟨i, hord.mem_iff.2 (mem_range.2 hi), hin⟩]

/-! ### Interleaved tasks -/

/-- The step writes the entry `i` of a mask. -/
def Touches (m : MaskId) (i : ℕ) : MaskStep → Bool
  | .store m' i' _ => m' = m ∧ i' = i
  | .keep m' i' _ => m' = m ∧ i' = i
  | .setValid m' row => m' = m ∧ row / 64 = i
  | .pushBegin _ _ => false

section Entries

variable {m : MaskId} {i : ℕ} {a : MaskStep}

theorem entries_step_of_not_touches (h : Touches m i a = false) (s : Masks) :
    (s.step a).entries m i = s.entries m i := by
  cases a with
  | pushBegin block row => rfl
  | _ =>
    simp only [Touches, decide_eq_false_iff_not] at h
    exact if_neg fun h' => h ⟨h'.1.symm, h'.2.symm⟩

variable {s s' : Masks} (h : s.entries m i = s'.entries m i)

include h

theorem entries_step_congr :
    (s.step a).entries m i = (s'.step a).entries m i := by
  have hupd : ∀ m' i' f, (s.update m' i' f).entries m i = (s'.update m' i' f).entries m i := by
    intro m' i' f
    simp only [Masks.update]
    split_ifs with heq
    · obtain ⟨rfl, rfl⟩ := heq
      rw [h]
    · exact h
  cases a with
  | store m' i' v => exact hupd m' i' fun _ => v
  | keep m' i' v => exact hupd m' i' (· &&& v)
  | setValid m' row => exact hupd m' (row / 64) (· ||| (1#64 <<< (row % 64)))
  | pushBegin block row => exact h

theorem entries_run_filter (steps : List MaskStep) :
    (s.run steps).entries m i = (s'.run (steps.filter (Touches m i))).entries m i := by
  induction steps generalizing s s' with
  | nil => exact h
  | cons a steps ih =>
    rw [filter_cons]
    split_ifs with ht
    · exact ih (entries_step_congr h)
    · exact ih ((entries_step_of_not_touches (by simpa using ht) s).trans h)

end Entries

theorem mem_setRangeInvalid {count b e : ℕ} (hbe : b < e) (he : e ≤ entryCount count)
    {a : MaskStep} (ha : a ∈ setRangeInvalid count m b e) :
    ∃ i v, a = .store m i v ∧ b ≤ i ∧ i < e := by
  rw [setRangeInvalid] at ha
  by_cases hz : count = 0
  · rw [if_pos hz] at ha
    exact absurd ha not_mem_nil
  rw [if_neg hz] at ha
  rcases mem_append.1 ha with ha | ha
  · obtain ⟨i, hi, rfl⟩ := mem_map.1 ha
    rw [mem_range'_1] at hi
    exact ⟨i, 0, rfl, by omega, by omega⟩
  · by_cases hle : e ≤ entryCount count - 1
    · rw [if_pos hle] at ha
      exact absurd ha not_mem_nil
    · rw [if_neg hle] at ha
      exact ⟨_, _, mem_singleton.1 ha, by omega, by omega⟩

/-- A task of `ComputeMasks` only writes entries of its own. -/
theorem entry_of_touches (hsort : g.sort = true) (hfull : g.FullChunks)
    (hbe : b < e) (he : e ≤ g.chunks.length) (hm : m ∈ g.maskIds) {i : ℕ} {a : MaskStep}
    (ha : a ∈ g.computeMasks setBegins b e) (ht : Touches m i a = true) :
    b * 32 ≤ i ∧ i < entryCount (g.position e) := by
  have hb := hfull.position_eq (show b < g.chunks.length by omega)
  have hmin := hfull.position_eq_min (show 0 < e by omega) he
  have hbeg : entryCount (b * standardVectorSize) = b * 32 := by
    rw [entryCount, standardVectorSize]
    omega
  simp only [computeMasks, ← hmin] at ha
  split_ifs at ha with hents
  · exact absurd ha not_mem_nil
  rcases mem_append.1 ha with ha | ha
  · obtain ⟨m', -, ha⟩ := mem_flatMap.1 ha
    rcases mem_append.1 ha with ha | ha
    · obtain ⟨i', v, rfl, h₁, h₂⟩ := mem_setRangeInvalid (not_le.1 hents)
        (by simp only [entryCount]; omega) ha
      simp only [Touches, decide_eq_true_eq] at ht
      omega
    · split_ifs at ha
      · rw [mem_singleton.1 ha] at ht
        simp only [Touches, decide_eq_true_eq] at ht
        omega
      · exact absurd ha not_mem_nil
  · have hmark := marks_markBlocks a ha
    cases a with
    | setValid m' row =>
      simp only [Touches, decide_eq_true_eq] at ht
      obtain ⟨rfl, rfl⟩ := ht
      obtain ⟨⟨-, h₁, h₂⟩, -⟩ := (mem_markBlocks hsort hbe he hm).1 ha
      rw [hb, standardVectorSize] at h₁
      rw [entryCount]
      omega
    | pushBegin block row => exact absurd ht (by simp [Touches])
    | store m' i v => exact hmark.elim
    | keep m' i v => exact hmark.elim

/-- If the chunks are full, the masks are right however the writes of the tasks are interleaved. -/
theorem computeMasks_run (hsort : g.sort = true) (hfull : g.FullChunks) (d : g.BlockDivision)
    (setBegins : Bool) {trace : List (ℕ × MaskStep)} (htrace : Interleaves d.parts
      (fun i => g.computeMasks setBegins (d.cut i) (d.cut (i + 1))) trace)
    (hm : m ∈ g.maskIds) {r : ℕ} (hr : r < g.count) :
    (Masks.allocate.run (trace.map Prod.snd)).bit m r = true ↔ g.IsStart m r := by
  obtain ⟨j, hj, hin⟩ := BlockDivision.exists_has (d := d) hr
  have hcut := d.cut_lt j hj
  have hlen := BlockDivision.cut_le (d := d) (show j + 1 ≤ d.parts from hj)
  -- No other task writes the entry of the row.
  have hown : ∀ i < d.parts, ∀ a ∈ g.computeMasks setBegins (d.cut i) (d.cut (i + 1)),
      Touches m (r / 64) a = true → i = j := by
    intro i hi a ha ht
    have hilen := BlockDivision.cut_le (d := d) (show i + 1 ≤ d.parts from hi)
    obtain ⟨h₁, h₂⟩ := entry_of_touches hsort hfull (d.cut_lt i hi) hilen hm ha ht
    obtain ⟨h₃, h₄⟩ := hin
    rcases Nat.lt_trichotomy i j with hlt | heq | hgt
    · have hmono := BlockDivision.cut_mono (d := d) (show i + 1 ≤ j from hlt) hj.le
      rw [hfull.position_eq (by omega), standardVectorSize] at h₃
      rw [hfull.position_eq (by omega), standardVectorSize, entryCount] at h₂
      omega
    · exact heq
    · have hmono := BlockDivision.cut_mono (d := d) (show j + 1 ≤ i from hgt) hi.le
      have hend := hfull.position_eq_min (show 0 < d.cut (j + 1) by omega) hlen
      rw [hend, standardVectorSize] at h₄
      omega
  have hent : (Masks.allocate.run (trace.map Prod.snd)).entries m (r / 64) =
      (Masks.allocate.run (g.computeMasks setBegins (d.cut j) (d.cut (j + 1)))).entries m
        (r / 64) := by
    rw [entries_run_filter rfl, htrace.filter_eq hj hown, ← entries_run_filter rfl]
  rw [Masks.bit, hent, ← Masks.bit, bit_computeMasks hsort hfull hcut hlen _ hm hr]
  exact iff_of_eq (if_pos hin)

/-- Whatever the order of the tasks under the lock, and of their writes for full chunks, the bit of a row is set if
    and only if it is the first row or differs from the one before in the columns the mask compares. -/
theorem masks_independent (g : MaskedRows V) (hsort : g.sort = true) (d : g.BlockDivision) (setBegins : Bool) :
    (∀ order : List ℕ, order.Perm (List.range d.parts) → ∀ m ∈ g.maskIds, ∀ r < g.count,
      ((Masks.allocate.run (order.flatMap fun i =>
        g.computeMasksForSmallRuns setBegins (d.cut i) (d.cut (i + 1)))).bit m r = true ↔
          r = 0 ∨ ∃ c < g.columns m, g.value r c ≠ g.value (r - 1) c)) ∧
    (g.FullChunks → ∀ trace, Interleaves d.parts
      (fun i => g.computeMasks setBegins (d.cut i) (d.cut (i + 1))) trace →
      ∀ m ∈ g.maskIds, ∀ r < g.count, ((Masks.allocate.run (trace.map Prod.snd)).bit m r = true ↔
          r = 0 ∨ ∃ c < g.columns m, g.value r c ≠ g.value (r - 1) c)) :=
  ⟨fun _ hord _ hm _ hr => computeMasksForSmallRuns_run hsort d setBegins hord hm hr,
    fun hfull _ htrace _ hm _ hr => computeMasks_run hsort hfull d setBegins htrace hm hr⟩

/-- Two rows of different partitions, in a chunk each. -/
def twoRows : MaskedRows ℕ where
  chunks := [1, 1]
  chunks_pos := by decide
  value r c := if c = 0 then r else 0
  partitionCount := 1
  orderColumns := [2]
  partitionCount_le := by decide
  sort := true

/-- A task for each of the two rows, the last one first. -/
theorem masks_independent_two_rows : (Masks.allocate.run ([1, 0].flatMap fun i =>
      twoRows.computeMasksForSmallRuns true i (i + 1))).bit .partition 1 = true := by
  refine ((masks_independent twoRows rfl ⟨2, id, rfl, by decide, rfl⟩ true).1 [1, 0]
    (List.Perm.swap 0 1 []) .partition (by decide) 1 (by decide)).2 (.inr ⟨0, ?_, ?_⟩)
  · decide
  · decide

end MaskedRows

end WfOpt

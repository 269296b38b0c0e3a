import WfOpt.Lib.Memory

/-!
# Run-length encoding

A column is written as runs of equal values. A run counts at most as many rows as fit 16 bits, and a row without a
value belongs to the run that it is found in, or to the first one. A segment has the values of its runs at the front
of a block, and behind them the counts, which are moved there when the segment is done.

Each row that has a value is in a run of that value, as far as its type distinguishes values (`Covers`), in the
segments that are written (`RLECompressState.written_compress`).
-/

namespace WfOpt

open List

/-- The largest `rle_count_t`. -/
def maxRunCount : ℕ := 65535

/-- `RLE_HEADER_SIZE` -/
def rleHeaderSize : ℕ := 8

/-- A run of rows that have one value. -/
abbrev Run (T : Type*) := T × ℕ

/-- The values of the rows of runs. -/
def expand {T : Type*} (runs : List (Run T)) : List T := runs.flatMap fun r => replicate r.2 r.1

/-! ## Runs of a column -/

variable {T : Type*}

/-- `RLEState` -/
structure RLEState (T : Type*) where
  seenCount : ℕ
  lastValue : T
  lastSeenCount : ℕ
  allNull : Bool

namespace RLEState

variable {σ : Type*}

/-- The initial state: no value has been seen yet. -/
def new (nullValue : T) : RLEState T := ⟨0, nullValue, 0, true⟩

/-- `Flush`: the last run is handed to a writer. -/
def flush (op : T → ℕ → σ → σ) (s : RLEState T) (w : σ) : σ := op s.lastValue s.lastSeenCount w

/-- `Update` by a row, up to the check whether the last run is full. -/
def updateRow [BEq T] (op : T → ℕ → σ → σ) (p : RLEState T × σ) : Option T → RLEState T × σ
  | some x =>
    let (s, w) := p
    if s.allNull then
      -- the rows before, which have no value, belong to the first run
      (⟨s.seenCount + 1, x, s.lastSeenCount + 1, false⟩, w)
    else if s.lastValue == x then ({ s with lastSeenCount := s.lastSeenCount + 1 }, w)
    else if 0 < s.lastSeenCount then (⟨s.seenCount + 1, x, 1, s.allNull⟩, s.flush op w)
    else ({ s with lastValue := x, lastSeenCount := 1 }, w)
  | none => ({ p.1 with lastSeenCount := p.1.lastSeenCount + 1 }, p.2)

/-- `Update` -/
def update [BEq T] (op : T → ℕ → σ → σ) (p : RLEState T × σ) (row : Option T) : RLEState T × σ :=
  let (s, w) := updateRow op p row
  if s.lastSeenCount = maxRunCount then
    ({ s with seenCount := s.seenCount + 1, lastSeenCount := 0 }, s.flush op w)
  else (s, w)

end RLEState

/-! ## Segments -/

/-- `ColumnSegment`: its bytes are in a block, from an offset on. -/
structure ColumnSegment where
  start : ℕ
  count : ℕ
  block : Memory
  blockOffset : ℕ
  segmentSize : ℕ

/-- The bytes of a segment, by offset. -/
def ColumnSegment.data (segment : ColumnSegment) : Memory := fun i => segment.block (segment.blockOffset + i)

@[simp] theorem ColumnSegment.data_mk (start count : ℕ) (block : Memory) (segmentSize : ℕ) :
    (ColumnSegment.mk start count block 0 segmentSize).data = block :=
  funext fun i => congrArg block (Nat.zero_add i)

/-- The segment has been stored elsewhere, with the bytes that are its own. -/
structure ColumnSegment.StoredAs (segment segment' : ColumnSegment) : Prop where
  start_eq : segment'.start = segment.start
  count_eq : segment'.count = segment.count
  data_eq : ∀ i < segment.segmentSize, segment'.data i = segment.data i

/-- `RLECompressState`: the segments that have been flushed, and the current one. -/
structure RLECompressState where
  flushed : List ColumnSegment
  start : ℕ
  count : ℕ
  handle : Memory
  entryCount : ℕ

namespace RLECompressState

/-- `MaxRLECount` -/
def maxRLECount (T : Type*) [Storable T] (blockSize : ℕ) : ℕ :=
  alignValueFloor 8 ((blockSize - rleHeaderSize) / (sizeOfType T + 2))

/-- Where the counts of a segment start that has `n` values before them. -/
def countsOffset (T : Type*) [Storable T] (n : ℕ) : ℕ := rleHeaderSize + n * sizeOfType T

variable [Storable T] (blockSize : ℕ) (allocate : ℕ → Memory)

/-- `CreateEmptySegment`: the bytes of the new block are whatever they are. -/
def createEmptySegment (rowStart : ℕ) (flushed : List ColumnSegment) : RLECompressState :=
  ⟨flushed, rowStart, 0, allocate rowStart, 0⟩

/-- `FlushSegment`: the counts are moved next to the values. A segment without rows is dropped. -/
def flushSegment (T : Type*) [Storable T] (s : RLECompressState) : List ColumnSegment :=
  let countsSize := 2 * s.entryCount
  let originalRleOffset := countsOffset T (maxRLECount T blockSize)
  let minimalRleOffset := countsOffset T s.entryCount
  let alignedRleOffset := alignValue 8 minimalRleOffset
  let totalSegmentSize := alignedRleOffset + countsSize
  let cleared := if minimalRleOffset < alignedRleOffset then
      s.handle.memset minimalRleOffset 0 (alignedRleOffset - minimalRleOffset)
    else s.handle
  let moved := cleared.memmove alignedRleOffset originalRleOffset countsSize
  if s.count = 0 then s.flushed
  else
    s.flushed ++ [⟨s.start, s.count, moved.storeNat 8 0 alignedRleOffset, 0, totalSegmentSize⟩]

/-- `WriteValue` -/
def writeValue (value : T) (count : ℕ) (s : RLECompressState) : RLECompressState :=
  let dataOffset := rleHeaderSize + s.entryCount * sizeOfType T
  let indexOffset := countsOffset T (maxRLECount T blockSize) + 2 * s.entryCount
  let s : RLECompressState := { s with
    handle := (s.handle.store dataOffset value).storeNat 2 indexOffset count
    entryCount := s.entryCount + 1
    count := s.count + count }
  if s.entryCount = maxRLECount T blockSize then
    createEmptySegment allocate (s.start + s.count) (s.flushSegment blockSize T)
  else s

/-- `Append` -/
def append [BEq T] (p : RLEState T × RLECompressState) (rows : List (Option T)) : RLEState T × RLECompressState :=
  rows.foldl (RLEState.update (writeValue blockSize allocate)) p

/-- `Finalize` -/
def finalize (p : RLEState T × RLECompressState) : List ColumnSegment :=
  (p.1.flush (writeValue blockSize allocate) p.2).flushSegment blockSize T

/-- The segments that are written for a column whose rows are handed over in vectors. -/
def compress [BEq T] (nullValue : T) (rowStart : ℕ) (vectors : List (List (Option T))) : List ColumnSegment :=
  finalize blockSize allocate (vectors.foldl (append blockSize allocate)
    (.new nullValue, createEmptySegment allocate rowStart []))

end RLECompressState

/-! ## Rows that are covered -/

/-- The value is the one of the row, if it has one, as far as its type distinguishes values. -/
def Same [BEq T] (x : T) (row : Option T) : Prop := ∀ v, row = some v → x = v ∨ (x == v) = true

theorem expand_append (runs runs' : List (Run T)) : expand (runs ++ runs') = expand runs ++ expand runs' :=
  flatMap_append

theorem expand_singleton (x : T) (n : ℕ) : expand [(x, n)] = replicate n x := flatMap_singleton _ _

namespace RLEState

variable [BEq T] {σ : Type*} {acc : σ → List T → Prop} {op : T → ℕ → σ → σ} {p : RLEState T × σ}
  {rows : List (Option T)}

/-- The values that a writer has, and the pending run, cover the rows. -/
def Tracks (acc : σ → List T → Prop) (p : RLEState T × σ) (rows : List (Option T)) : Prop :=
  ∃ values rows' pending, rows = rows' ++ pending ∧ acc p.2 values ∧ List.Forall₂ Same values rows' ∧
    p.1.lastSeenCount = pending.length ∧ (∀ row ∈ pending, Same p.1.lastValue row) ∧
      (p.1.allNull = true → ∀ row ∈ pending, row = none)

/-- A writer that takes a run has the values of its rows. -/
def Writes (acc : σ → List T → Prop) (op : T → ℕ → σ → σ) : Prop :=
  ∀ x c w values, 0 < c → c ≤ maxRunCount → acc w values → acc (op x c w) (values ++ replicate c x)

theorem forall₂_replicate {x : T} {rows : List (Option T)} (h : ∀ row ∈ rows, Same x row) :
    List.Forall₂ Same (replicate rows.length x) rows := by
  induction rows with
  | nil => exact .nil
  | cons row rows ih =>
    exact .cons (h row mem_cons_self) (ih fun row hrow => h row (mem_cons_of_mem _ hrow))

theorem same_none (x : T) : Same x none := fun _ h => nomatch h

theorem tracks_new {w : σ} (hacc : acc w []) (nullValue : T) : Tracks acc (new nullValue, w) [] :=
  ⟨[], [], [], rfl, hacc, .nil, rfl, fun _ h => absurd h not_mem_nil, fun _ _ h => absurd h not_mem_nil⟩

/-- When the pending run has been handed over, the writer has all rows. -/
theorem Tracks.flush (h : Tracks acc p rows) (hop : Writes acc op) (hpos : 0 < p.1.lastSeenCount)
    (hle : p.1.lastSeenCount ≤ maxRunCount) :
    ∃ values, acc (p.1.flush op p.2) values ∧ List.Forall₂ Same values rows := by
  obtain ⟨values, rows', pending, rfl, hacc, hvals, hcnt, hpend, -⟩ := h
  refine ⟨_, hop p.1.lastValue p.1.lastSeenCount p.2 values hpos hle hacc, ?_⟩
  rw [hcnt]
  exact rel_append hvals (forall₂_replicate hpend)

section

variable (h : Tracks acc p rows) (hop : Writes acc op) (hlt : p.1.lastSeenCount < maxRunCount) (row : Option T)

include h hop hlt

theorem Tracks.updateRow :
    Tracks acc (updateRow op p row) (rows ++ [row]) ∧ 0 < (RLEState.updateRow op p row).1.lastSeenCount ∧
      (RLEState.updateRow op p row).1.lastSeenCount ≤ maxRunCount := by
  obtain ⟨s, w⟩ := p
  have hflush := fun hpos => h.flush hop hpos hlt.le
  obtain ⟨values, rows', pending, hrs, hacc, hvals, hcnt, hpend, hnl⟩ := h
  -- the row is added to the pending run
  have hextend : ∀ s' : RLEState T, s'.lastSeenCount = s.lastSeenCount + 1 →
      (∀ r ∈ pending, Same s'.lastValue r) → Same s'.lastValue row →
        (s'.allNull = true → s.allNull = true ∧ row = none) → Tracks acc (s', w) (rows ++ [row]) := by
    intro s' hcnt' hpend' hrow hnl'
    refine ⟨values, rows', pending ++ [row], by rw [hrs, append_assoc], hacc, hvals, ?_, ?_, ?_⟩
    · rw [hcnt', hcnt, length_append, length_singleton]
    · exact forall_mem_append.2 ⟨hpend', forall_mem_singleton.2 hrow⟩
    · intro hall
      exact forall_mem_append.2 ⟨hnl (hnl' hall).1, forall_mem_singleton.2 (hnl' hall).2⟩
  -- or it is the first one of another run
  have hnew : ∀ (s' : RLEState T) (w' : σ) (values' : List T), acc w' values' →
      List.Forall₂ Same values' rows → s'.lastSeenCount = 1 → Same s'.lastValue row →
        s'.allNull = false → Tracks acc (s', w') (rows ++ [row]) := by
    intro s' w' values' hacc' hvals' hcnt' hrow hnl'
    exact ⟨values', rows, [row], rfl, hacc', hvals', hcnt', forall_mem_singleton.2 hrow,
      fun hall => absurd hall (by rw [hnl']; exact Bool.false_ne_true)⟩
  have hself : ∀ x : T, Same x (some x) := fun x v hv => .inl (Option.some.inj hv)
  cases row with
  | none =>
    exact ⟨hextend _ rfl hpend (same_none _) fun hall => ⟨hall, rfl⟩, Nat.succ_pos _, hlt⟩
  | some x =>
    rw [RLEState.updateRow]
    by_cases hall : s.allNull
    · rw [if_pos hall]
      refine ⟨hextend _ rfl (fun r hr => ?_) (hself x) fun h => absurd h Bool.false_ne_true, Nat.succ_pos _, hlt⟩
      rw [hnl hall r hr]
      exact same_none x
    · rw [if_neg hall]
      by_cases heq : s.lastValue == x
      · rw [if_pos heq]
        refine ⟨hextend _ rfl hpend (fun v hv => .inr ?_) fun h => absurd h hall, Nat.succ_pos _, hlt⟩
        rwa [← Option.some.inj hv]
      · rw [if_neg heq]
        by_cases hpos : 0 < s.lastSeenCount
        · rw [if_pos hpos]
          obtain ⟨values', hacc', hvals'⟩ := hflush hpos
          exact ⟨hnew _ _ values' hacc' hvals' rfl (hself x) (Bool.eq_false_iff.2 hall), Nat.one_pos,
            Nat.one_le_of_lt hlt⟩
        · -- the run before was full, and has been handed over
          rw [if_neg hpos]
          have hemp : pending = [] := length_eq_zero_iff.1 (hcnt.symm.trans (Nat.eq_zero_of_not_pos hpos))
          have hdone : rows = rows' := by rw [hrs, hemp, append_nil]
          exact ⟨hnew _ _ values hacc (hdone ▸ hvals) rfl (hself x) (Bool.eq_false_iff.2 hall),
            Nat.one_pos, Nat.one_le_of_lt hlt⟩

theorem Tracks.update :
    Tracks acc (update op p row) (rows ++ [row]) ∧ (RLEState.update op p row).1.lastSeenCount < maxRunCount := by
  obtain ⟨htrack, hpos, hle⟩ := h.updateRow hop hlt row
  rw [RLEState.update]
  obtain ⟨⟨s, w⟩, hs⟩ : ∃ q, q = RLEState.updateRow op p row := ⟨_, rfl⟩
  rw [← hs] at htrack hpos hle ⊢
  dsimp only at hpos hle ⊢
  by_cases hfull : s.lastSeenCount = maxRunCount
  · rw [if_pos hfull]
    obtain ⟨values, hacc, hvals⟩ := htrack.flush hop hpos hle
    exact ⟨⟨values, _, [], (append_nil _).symm, hacc, hvals, rfl,
      fun _ h => absurd h not_mem_nil, fun _ _ h => absurd h not_mem_nil⟩,
      (by decide : 0 < maxRunCount)⟩
  · rw [if_neg hfull]
    exact ⟨htrack, lt_of_le_of_ne hle hfull⟩

end

theorem Tracks.foldl (hop : Writes acc op) (rows' : List (Option T)) :
    ∀ {p : RLEState T × σ} {rows : List (Option T)}, Tracks acc p rows →
      p.1.lastSeenCount < maxRunCount → Tracks acc (rows'.foldl (RLEState.update op) p) (rows ++ rows') ∧
        (rows'.foldl (RLEState.update op) p).1.lastSeenCount < maxRunCount := by
  induction rows' with
  | nil =>
    intro p rows h hlt
    exact ⟨by rwa [append_nil], hlt⟩
  | cons row rows' ih =>
    intro p rows h hlt
    obtain ⟨h', hlt'⟩ := h.update hop hlt row
    rw [append_cons]
    exact ih h' hlt'

end RLEState

/-! ## Segments that are written -/

/-- The values of runs are at the front, and their counts at an offset. -/
structure HasRuns [Storable T] (data : Memory) (offset : ℕ) (runs : List (Run T)) : Prop where
  value : ∀ e r, runs[e]? = some r → data.load T (rleHeaderSize + e * sizeOfType T) = r.1
  count : ∀ e r, runs[e]? = some r → data.loadNat 2 (offset + 2 * e) = r.2

variable {runs : List (Run T)}

theorem HasRuns.congr [Storable T] {data data' : Memory} {offset offset' : ℕ} (h : HasRuns data offset runs)
    (hval : ∀ e < runs.length, data'.read (rleHeaderSize + e * sizeOfType T) (sizeOfType T) =
      data.read (rleHeaderSize + e * sizeOfType T) (sizeOfType T))
    (hcnt : ∀ e < runs.length, data'.read (offset' + 2 * e) 2 = data.read (offset + 2 * e) 2) :
    HasRuns data' offset' runs where
  value e r hr := by
    rw [← h.value e r hr, Memory.load, hval e (List.getElem?_eq_some_iff.1 hr).1]
    rfl
  count e r hr := by
    rw [← h.count e r hr, Memory.loadNat, hcnt e (List.getElem?_eq_some_iff.1 hr).1]
    rfl

theorem HasRuns.take [Storable T] {data : Memory} {offset : ℕ}
    (h : HasRuns data offset runs) (k : ℕ) : HasRuns data offset (runs.take k) :=
  have hget : ∀ e r, (runs.take k)[e]? = some r → runs[e]? = some r := fun e r hr => by
    rw [getElem?_take] at hr
    exact (ite_eq_iff.1 hr).elim And.right fun h => nomatch h.2
  ⟨fun e r hr => h.value e r (hget e r hr), fun e r hr => h.count e r (hget e r hr)⟩

/-- The bytes of a segment are those of runs. -/
structure ColumnSegment.Encodes [Storable T] (blockSize : ℕ) (segment : ColumnSegment)
    (runs : List (Run T)) : Prop where
  count_eq : segment.count = (expand runs).length
  size_le : segment.segmentSize ≤ blockSize
  size_eq : segment.segmentSize =
    alignValue 8 (RLECompressState.countsOffset T runs.length) + 2 * runs.length
  offset_eq : segment.data.loadNat 8 0 = alignValue 8 (RLECompressState.countsOffset T runs.length)
  offset_le : alignValue 8 (RLECompressState.countsOffset T runs.length) ≤ blockSize
  hasRuns : HasRuns segment.data (alignValue 8 (RLECompressState.countsOffset T runs.length)) runs

namespace RLECompressState

variable [Storable T] {blockSize : ℕ} {s : RLECompressState} {runs : List (Run T)}

/-- The current segment has runs. -/
structure Holds (blockSize : ℕ) (s : RLECompressState) (runs : List (Run T)) : Prop where
  entryCount_eq : s.entryCount = runs.length
  entryCount_le : runs.length ≤ maxRLECount T blockSize
  count_eq : s.count = (expand runs).length
  hasRuns : HasRuns s.handle (countsOffset T (maxRLECount T blockSize)) runs

theorem value_le (T : Type*) [Storable T] {e n : ℕ} (h : e < n) :
    rleHeaderSize + e * sizeOfType T + sizeOfType T ≤ countsOffset T n := by
  rw [countsOffset, Nat.add_assoc, ← Nat.succ_mul]
  exact Nat.add_le_add_left (Nat.mul_le_mul_right _ h) _

theorem countsOffset_mono (T : Type*) [Storable T] {n k : ℕ} (h : n ≤ k) :
    countsOffset T n ≤ countsOffset T k := Nat.add_le_add_left (Nat.mul_le_mul_right _ h) _

/-- The values and the counts of all runs fit a block. -/
theorem countsOffset_max_le (hmax : 0 < maxRLECount T blockSize) :
    countsOffset T (maxRLECount T blockSize) + 2 * maxRLECount T blockSize ≤ blockSize := by
  have hle : maxRLECount T blockSize * (sizeOfType T + 2) ≤ blockSize - rleHeaderSize :=
    (Nat.le_div_iff_mul_le (Nat.succ_pos _)).1 (alignValueFloor_le 8 _)
  have hmul : 0 < maxRLECount T blockSize * (sizeOfType T + 2) := Nat.mul_pos hmax (Nat.succ_pos _)
  rw [Nat.mul_add] at hle hmul
  rw [countsOffset]
  omega

theorem alignValue_countsOffset_le {n : ℕ} (h : n ≤ maxRLECount T blockSize) :
    alignValue 8 (countsOffset T n) ≤ countsOffset T (maxRLECount T blockSize) := by
  obtain ⟨k, hk⟩ : ∃ k, maxRLECount T blockSize = k * 8 := ⟨_, rfl⟩
  have halig : countsOffset T (maxRLECount T blockSize) = (1 + k * sizeOfType T) * 8 := by
    rw [countsOffset, hk, rleHeaderSize]
    ring
  rw [halig]
  exact alignValue_le (by decide) ((countsOffset_mono T h).trans_eq halig)

theorem Holds.store (h : s.Holds blockSize runs) (hlt : runs.length < maxRLECount T blockSize)
    (value : T) {count : ℕ} (hcnt : count ≤ maxRunCount) :
    Holds blockSize { s with
      handle := (s.handle.store (rleHeaderSize + s.entryCount * sizeOfType T) value).storeNat 2
        (countsOffset T (maxRLECount T blockSize) + 2 * s.entryCount) count
      entryCount := s.entryCount + 1
      count := s.count + count } (runs ++ [(value, count)]) := by
  have hbhd := value_le T hlt
  refine ⟨?_, ?_, ?_, ?_⟩
  · rw [h.entryCount_eq, length_append, length_singleton]
  · rw [length_append, length_singleton]
    exact hlt
  · rw [h.count_eq, expand_append, length_append, expand_singleton, length_replicate]
  · rw [h.entryCount_eq]
    have hbef : HasRuns ((s.handle.store (rleHeaderSize + runs.length * sizeOfType T) value).storeNat 2
        (countsOffset T (maxRLECount T blockSize) + 2 * runs.length) count)
        (countsOffset T (maxRLECount T blockSize)) runs := by
      refine h.hasRuns.congr (fun e he => ?_) fun e he => ?_
      · have hval := value_le T he
        have hmono := countsOffset_mono T hlt.le
        rw [Memory.read_storeNat_of_disjoint _ (.inl (by omega))]
        exact s.handle.read_store_of_disjoint (.inl hval)
      · rw [Memory.read_storeNat_of_disjoint _ (.inl (by omega)), Memory.read_store_of_disjoint _ (.inr (by omega))]
    have hlst : ∀ e r, (runs ++ [(value, count)])[e]? = some r →
        runs[e]? = some r ∨ e = runs.length ∧ r = (value, count) := by
      intro e r hr
      rcases Nat.lt_or_ge e runs.length with he | he
      · exact .inl (by rwa [getElem?_append_left he] at hr)
      · rw [getElem?_append_right he, getElem?_singleton] at hr
        by_cases hz : e - runs.length = 0
        · rw [if_pos hz] at hr
          exact .inr ⟨le_antisymm (Nat.sub_eq_zero_iff_le.1 hz) he, (Option.some.inj hr).symm⟩
        · rw [if_neg hz] at hr
          exact nomatch hr
    refine ⟨fun e r hr => ?_, fun e r hr => ?_⟩
    · rcases hlst e r hr with hr | ⟨rfl, rfl⟩
      · exact hbef.value e r hr
      · rw [Memory.load, Memory.read_storeNat_of_disjoint _ (.inl (by omega))]
        exact s.handle.load_store _ value
    · rcases hlst e r hr with hr | ⟨rfl, rfl⟩
      · exact hbef.count e r hr
      · exact Memory.loadNat_storeNat _ (Nat.lt_of_le_of_lt hcnt (by decide))

theorem Holds.flush (h : s.Holds blockSize runs) (hmax : 0 < maxRLECount T blockSize)
    (hblk : blockSize < 2 ^ 32) (hcnt : s.count ≠ 0) :
    ∃ segment, s.flushSegment blockSize T = s.flushed ++ [segment] ∧ segment.start = s.start ∧
      segment.Encodes blockSize runs := by
  have hfits := countsOffset_max_le hmax
  have halig := alignValue_countsOffset_le h.entryCount_le
  have hminimal := le_alignValue (by decide : 0 < 8) (countsOffset T runs.length)
  have hle := h.entryCount_le
  rw [flushSegment, if_neg hcnt, h.entryCount_eq]
  obtain ⟨cleared, hcleared⟩ : ∃ m, m =
      if countsOffset T runs.length < alignValue 8 (countsOffset T runs.length) then
        s.handle.memset (countsOffset T runs.length) 0
          (alignValue 8 (countsOffset T runs.length) - countsOffset T runs.length)
      else s.handle := ⟨_, rfl⟩
  rw [← hcleared]
  -- neither the values nor the counts have been cleared
  have hrd : ∀ offset w, offset + w ≤ countsOffset T runs.length ∨
      countsOffset T (maxRLECount T blockSize) ≤ offset → cleared.read offset w = s.handle.read offset w := by
    intro offset w hoff
    rw [hcleared]
    by_cases hgap : countsOffset T runs.length < alignValue 8 (countsOffset T runs.length)
    · rw [if_pos hgap]
      refine Memory.read_memset_of_disjoint _ (hoff.imp_right fun hoff => ?_)
      rw [Nat.add_sub_cancel' hminimal]
      exact halig.trans hoff
    · rw [if_neg hgap]
  refine ⟨_, rfl, rfl, ⟨h.count_eq, ?_, rfl, ?_, ?_, ?_⟩⟩
  · dsimp only
    omega
  · have hlt : alignValue 8 (countsOffset T runs.length) < 256 ^ 8 := by omega
    rw [ColumnSegment.data_mk]
    exact Memory.loadNat_storeNat _ hlt
  · omega
  · rw [ColumnSegment.data_mk]
    refine h.hasRuns.congr (fun e he => ?_) fun e he => ?_
    · have hval := value_le T he
      have hhead : 0 + 8 ≤ rleHeaderSize + e * sizeOfType T := Nat.le_add_right _ _
      rw [Memory.read_storeNat_of_disjoint _ (.inr hhead),
        Memory.read_memmove_of_disjoint _ (.inl (hval.trans hminimal)), hrd _ _ (.inl hval)]
    · have hhead : 0 + 8 ≤ alignValue 8 (countsOffset T runs.length) + 2 * e :=
        (Nat.le_add_right rleHeaderSize _).trans (hminimal.trans (Nat.le_add_right _ _))
      rw [Memory.read_storeNat_of_disjoint _ (.inr hhead), Memory.read_memmove _ _ _ (by omega),
        hrd _ _ (.inr (Nat.le_add_right _ _))]

end RLECompressState

/-! ## The segments of a column -/

/-- Segments that follow one another. -/
def Consecutive : ℕ → List ColumnSegment → Prop
  | _, [] => True
  | start, segment :: l => segment.start = start ∧ Consecutive (start + segment.count) l

theorem Consecutive.concat {segment : ColumnSegment} (l : List ColumnSegment) : ∀ {start : ℕ},
    Consecutive start l → segment.start = start + (l.map ColumnSegment.count).sum →
      Consecutive start (l ++ [segment]) := by
  induction l with
  | nil => exact fun _ hst => ⟨hst, trivial⟩
  | cons first l ih =>
    intro start h hst
    refine ⟨h.1, ih h.2 ?_⟩
    rw [hst, map_cons, sum_cons, Nat.add_assoc]

/-- All runs that have rows are in front. -/
def Regular (runs : List (Run T)) : Prop := ∃ k, (∀ r ∈ runs.take k, 0 < r.2) ∧ expand (runs.take k) = expand runs

theorem regular_of_pos (h : ∀ r ∈ runs, 0 < r.2) : Regular runs :=
  ⟨runs.length, by rwa [take_length], by rw [take_length]⟩

/-- The last run may be without rows. -/
theorem regular_concat (h : ∀ r ∈ runs, 0 < r.2) (value : T) (count : ℕ) : Regular (runs ++ [(value, count)]) := by
  rcases count.eq_zero_or_pos with rfl | hpos
  · refine ⟨runs.length, by rwa [take_left], ?_⟩
    rw [take_left, expand_append, expand_singleton, replicate_zero, append_nil]
  · exact regular_of_pos (forall_mem_append.2 ⟨h, forall_mem_singleton.2 hpos⟩)

/-- The segment has the values. -/
def ColumnSegment.HasValues [Storable T] (blockSize : ℕ) (segment : ColumnSegment) (values : List T) : Prop :=
  ∃ runs, segment.Encodes blockSize runs ∧ Regular runs ∧ expand runs = values

/-- Segments that follow one another have the values of a column. -/
structure Written [Storable T] (blockSize rowStart : ℕ) (segments : List ColumnSegment)
    (chunks : List (List T)) : Prop where
  consecutive : Consecutive rowStart segments
  values : List.Forall₂ (ColumnSegment.HasValues blockSize) segments chunks

section Written

variable [Storable T] {blockSize rowStart : ℕ} {segments : List ColumnSegment} {chunks : List (List T)}

theorem ColumnSegment.HasValues.count_eq {segment : ColumnSegment} {values : List T}
    (h : segment.HasValues blockSize values) : segment.count = values.length := by
  obtain ⟨runs, henc, -, rfl⟩ := h
  exact henc.count_eq

theorem Written.sum_count (h : Written blockSize rowStart segments chunks) :
    (segments.map ColumnSegment.count).sum = chunks.flatten.length := by
  rw [length_flatten]
  refine congrArg sum (forall₂_eq_eq_eq ▸ ?_)
  exact forall₂_map_left_iff.2 (forall₂_map_right_iff.2 (h.values.imp fun _ _ hv => hv.count_eq))

theorem written_nil : Written blockSize rowStart [] ([] : List (List T)) := ⟨trivial, .nil⟩

theorem Written.concat (h : Written blockSize rowStart segments chunks) {segment : ColumnSegment}
    {values : List T} (hst : segment.start = rowStart + chunks.flatten.length)
    (hvals : segment.HasValues blockSize values) :
    Written blockSize rowStart (segments ++ [segment]) (chunks ++ [values]) where
  consecutive := h.consecutive.concat segments (by rw [hst, h.sum_count])
  values := rel_append h.values (.cons hvals .nil)

end Written

namespace RLECompressState

variable [Storable T] {blockSize rowStart : ℕ} {allocate : ℕ → Memory} {s : RLECompressState}
  {runs : List (Run T)} {chunks : List (List T)}

theorem Holds.written_flush (h : s.Holds blockSize runs) (hmax : 0 < maxRLECount T blockSize)
    (hblk : blockSize < 2 ^ 32) (hregular : Regular runs)
    (hwr : Written blockSize rowStart s.flushed chunks)
    (hst : s.start = rowStart + chunks.flatten.length) :
    ∃ chunks', Written blockSize rowStart (s.flushSegment blockSize T) chunks' ∧
      chunks'.flatten = chunks.flatten ++ expand runs := by
  by_cases hcnt : s.count = 0
  · refine ⟨chunks, ?_, ?_⟩
    · rwa [flushSegment, if_pos hcnt]
    · rw [length_eq_zero_iff.1 (h.count_eq.symm.trans hcnt), append_nil]
  · obtain ⟨segment, hflush, hseg, henc⟩ := h.flush hmax hblk hcnt
    refine ⟨chunks ++ [expand runs], ?_, by rw [flatten_append, flatten_singleton]⟩
    rw [hflush]
    exact hwr.concat (hseg.trans hst) ⟨runs, henc, hregular, rfl⟩

/-- The segments that have been flushed and the current one have the values. -/
structure HasWritten (blockSize rowStart : ℕ) (s : RLECompressState) (chunks : List (List T))
    (runs : List (Run T)) : Prop where
  written : Written blockSize rowStart s.flushed chunks
  start_eq : s.start = rowStart + chunks.flatten.length
  holds : s.Holds blockSize runs
  length_lt : runs.length < maxRLECount T blockSize

theorem hasWritten_empty (hmax : 0 < maxRLECount T blockSize) {flushed : List ColumnSegment}
    (hwr : Written blockSize rowStart flushed chunks) {start : ℕ}
    (hst : start = rowStart + chunks.flatten.length) :
    HasWritten blockSize rowStart (createEmptySegment allocate start flushed) chunks ([] : List (Run T)) where
  written := hwr
  start_eq := hst
  holds := ⟨rfl, Nat.zero_le _, rfl, ⟨fun _ _ h => absurd h (by simp), fun _ _ h => absurd h (by simp)⟩⟩
  length_lt := hmax

theorem HasWritten.writeValue (h : HasWritten blockSize rowStart s chunks runs) (allocate : ℕ → Memory)
    (hmax : 0 < maxRLECount T blockSize) (hblk : blockSize < 2 ^ 32) (hpos : ∀ r ∈ runs, 0 < r.2)
    (value : T) {count : ℕ} (hcnt : count ≤ maxRunCount) :
    ∃ chunks' runs', HasWritten blockSize rowStart (s.writeValue blockSize allocate value count)
        chunks' runs' ∧ (runs' = [] ∨ runs' = runs ++ [(value, count)]) ∧
      chunks'.flatten ++ expand runs' = chunks.flatten ++ expand runs ++ replicate count value := by
  have hstore := h.holds.store h.length_lt value hcnt
  rw [RLECompressState.writeValue]
  by_cases hfull : s.entryCount + 1 = maxRLECount T blockSize
  · rw [if_pos hfull]
    obtain ⟨chunks', hwr, hflat⟩ := hstore.written_flush hmax hblk
      (regular_concat hpos value count) h.written h.start_eq
    rw [expand_append, expand_singleton, ← append_assoc] at hflat
    refine ⟨chunks', [], hasWritten_empty hmax hwr ?_, .inl rfl, ?_⟩
    · rw [h.start_eq, h.holds.count_eq, hflat]
      simp only [length_append, length_replicate]
      ring
    · rw [hflat]
      exact append_nil _
  · rw [if_neg hfull]
    refine ⟨chunks, _, ⟨h.written, h.start_eq, hstore, ?_⟩, .inr rfl, ?_⟩
    · rw [length_append, length_singleton]
      refine lt_of_le_of_ne h.length_lt ?_
      rwa [← h.holds.entryCount_eq]
    · rw [expand_append, expand_singleton, append_assoc]

/-- What has been written are the values. -/
def HasValues (blockSize rowStart : ℕ) (s : RLECompressState) (values : List T) : Prop :=
  ∃ (chunks : List (List T)) (runs : List (Run T)), HasWritten blockSize rowStart s chunks runs ∧
    (∀ r ∈ runs, 0 < r.2) ∧ chunks.flatten ++ expand runs = values

theorem writes_writeValue (allocate : ℕ → Memory) (hmax : 0 < maxRLECount T blockSize) (hblk : blockSize < 2 ^ 32) :
    RLEState.Writes (HasValues blockSize rowStart)
      (RLECompressState.writeValue (T := T) blockSize allocate) := by
  rintro value count s values hcnt hle ⟨chunks, runs, h, hpos, rfl⟩
  obtain ⟨chunks', runs', h', hruns, hvals⟩ := h.writeValue allocate hmax hblk hpos value hle
  refine ⟨chunks', runs', h', ?_, hvals⟩
  rcases hruns with rfl | rfl
  · exact fun _ h => absurd h not_mem_nil
  · exact forall_mem_append.2 ⟨hpos, forall_mem_singleton.2 hcnt⟩

/-- The segments that are written for a column have values that cover its rows. -/
theorem written_compress [BEq T] (hmax : 0 < maxRLECount T blockSize) (hblk : blockSize < 2 ^ 32)
    (allocate : ℕ → Memory) (nullValue : T) (rowStart : ℕ) (vectors : List (List (Option T))) :
    ∃ chunks : List (List T), Written blockSize rowStart
      (compress blockSize allocate nullValue rowStart vectors) chunks ∧
        List.Forall₂ Same chunks.flatten vectors.flatten := by
  have hemp : HasValues blockSize rowStart (createEmptySegment allocate rowStart []) ([] : List T) :=
    ⟨[], [], hasWritten_empty hmax written_nil rfl, fun _ h => absurd h not_mem_nil, rfl⟩
  obtain ⟨htrack, hlt⟩ := (RLEState.tracks_new hemp nullValue).foldl
    (writes_writeValue allocate hmax hblk) vectors.flatten (by decide : 0 < maxRunCount)
  rw [compress]
  rw [nil_append, foldl_flatten] at htrack
  rw [foldl_flatten] at hlt
  obtain ⟨p, hp⟩ : ∃ p, p = vectors.foldl (append blockSize allocate)
      (RLEState.new nullValue, createEmptySegment allocate rowStart []) := ⟨_, rfl⟩
  rw [← hp]
  change RLEState.Tracks _ (vectors.foldl (append blockSize allocate) _) _ at htrack
  change (vectors.foldl (append blockSize allocate) _).1.lastSeenCount < _ at hlt
  rw [← hp] at htrack hlt
  -- the pending run may be empty
  obtain ⟨values, rows, pending, hrs, ⟨chunks, runs, h, hpos, rfl⟩, hvals, hcnt, hpend, -⟩ := htrack
  obtain ⟨chunks', runs', h', hruns, hflat⟩ := h.writeValue allocate hmax hblk hpos
    p.1.lastValue hlt.le
  have hregular : Regular runs' := by
    rcases hruns with rfl | rfl
    · exact regular_of_pos fun _ h => absurd h not_mem_nil
    · exact regular_concat hpos _ _
  obtain ⟨chunks'', hwr, hflat'⟩ := h'.holds.written_flush hmax hblk hregular h'.written h'.start_eq
  refine ⟨chunks'', hwr, ?_⟩
  rw [hflat', hflat, hrs, hcnt]
  exact rel_append hvals (RLEState.forall₂_replicate hpend)

end RLECompressState

end WfOpt

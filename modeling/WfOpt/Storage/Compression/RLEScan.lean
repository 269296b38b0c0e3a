import WfOpt.Basic
import WfOpt.Lib.Transition
import WfOpt.Storage.Compression.RLE

/-!
# Reading runs

A scan of a segment is at a run, of which some rows have been read. Five readers move it, each with loops of its own:
scans of a vector or a part of it, skips, selections of rows, and filters. A single row is fetched by a scan of its
own. The position is that of a row (`cursor`), and each reader moves it on by the rows it was asked for, and returns
their values (`ColumnSegment.Serves`).
-/

namespace WfOpt

open List Function

variable {T : Type}

/-! ## Results -/

/-- What a reader returns, or throws; nothing if a loop runs for more iterations than there are rows. -/
abbrev Outcome := ExceptT String Option

/-- A loop is still running. -/
def Outcome.running {α : Type} : Outcome α := (none : Option (Except String α))

/-- `Vector`: a constant vector has one value for all rows. -/
structure ScanVector (T : Type) where
  constant : Bool
  data : ℕ → T

/-- The value of a row. -/
def ScanVector.value (v : ScanVector T) (i : ℕ) : T := if v.constant then v.data 0 else v.data i

/-- A loop that writes a value to `n` rows. -/
def fillRows (data : ℕ → T) (offset n : ℕ) (x : T) : ℕ → T := fun i =>
  if offset ≤ i ∧ i < offset + n then x else data i

theorem fillRows_of_mem {data : ℕ → T} {offset n i : ℕ} {x : T} (hi : i < n) :
    fillRows data offset n x (offset + i) = x :=
  if_pos ⟨Nat.le_add_right _ _, Nat.add_lt_add_left hi _⟩

theorem fillRows_of_not_mem {data : ℕ → T} {offset n i : ℕ} {x : T}
    (hi : i < offset ∨ offset + n ≤ i) : fillRows data offset n x i = data i :=
  if_neg fun h => hi.elim (not_lt.2 h.1) (not_le.2 h.2)

/-- `SelectionVector`: without indexes, it selects all rows. -/
structure SelectionVector where
  selVector : Option (ℕ → ℕ)

namespace SelectionVector

/-- `get_index` -/
def getIndex (sel : SelectionVector) (i : ℕ) : ℕ := match sel.selVector with
  | none => i
  | some index => index i

/-- The indexes of the first `count` rows that are selected. -/
def rows (sel : SelectionVector) (count : ℕ) : List ℕ := (range count).map sel.getIndex

/-- The selection of a list of rows. -/
def ofRows (l : List ℕ) : SelectionVector := ⟨some fun i => l.getD i 0⟩

end SelectionVector

/-! ## Readers -/

/-- `RLEScanState` -/
structure RLEScanState where
  entryPos : ℕ
  positionInEntry : ℕ
  rleCountOffset : ℕ
  matchingRuns : Option (ℕ → Bool)
  matchingRunCount : ℕ

namespace RLEScanState

variable (segment : ColumnSegment)

/-- The constructor of `RLEScanState`: the offset of the counts is read. -/
def new : RLEScanState := ⟨0, 0, segment.data.loadNat 8 0 % 2 ^ 32, none, 0⟩

/-- `index_pointer[entry_pos]` -/
def runEnd (s : RLEScanState) : ℕ := segment.data.loadNat 2 (s.rleCountOffset + 2 * s.entryPos)

/-- `data_pointer[entry_pos]` -/
def element (T : Type) [Storable T] (s : RLEScanState) : T :=
  segment.data.load T (rleHeaderSize + s.entryPos * sizeOfType T)

/-- The position is moved within a run. -/
def advance (s : RLEScanState) (n : ℕ) : RLEScanState := { s with positionInEntry := s.positionInEntry + n }

/-- `ForwardToNextRun` -/
def forwardToNextRun (s : RLEScanState) : RLEScanState := { s with entryPos := s.entryPos + 1, positionInEntry := 0 }

/-- `ExhaustedRun` -/
def exhaustedRun (s : RLEScanState) : Bool := s.runEnd segment ≤ s.positionInEntry

/-- The position is moved to the next run if the run is exhausted. -/
def normalize (s : RLEScanState) : RLEScanState := if s.exhaustedRun segment then s.forwardToNextRun else s

/-- The loop of `SkipInternal` -/
def skipLoop : ℕ → RLEScanState → ℕ → Outcome RLEScanState
  | _, s, 0 => pure s
  | 0, _, _ + 1 => .running
  | fuel + 1, s, skipCount + 1 =>
    let skipAmount := min (skipCount + 1) (s.runEnd segment - s.positionInEntry)
    skipLoop fuel ((s.advance skipAmount).normalize segment) (skipCount + 1 - skipAmount)

/-- `Skip` -/
def skip (s : RLEScanState) (skipCount : ℕ) : Outcome RLEScanState := s.skipLoop segment skipCount skipCount

/-- `CanEmitConstantVector` -/
def canEmitConstantVector (entireVector : Bool) (position runLength scanCount : ℕ) : Bool :=
  if !entireVector then false
  else if scanCount ≠ standardVectorSize then false
  else scanCount ≤ runLength - position

variable [Storable T]

/-- `RLEScanConstant` -/
def scanConstant (s : RLEScanState) (scanCount : ℕ) (result : ScanVector T) : RLEScanState × ScanVector T :=
  ((s.advance scanCount).normalize segment, ⟨true, update result.data 0 (s.element segment T)⟩)

/-- The loop of `RLEScanPartialInternal` -/
def scanLoop : ℕ → RLEScanState → (ℕ → T) → ℕ → ℕ → Outcome (RLEScanState × (ℕ → T))
  | fuel, s, data, resultOffset, resultEnd =>
    if resultOffset < resultEnd then
      match fuel with
      | 0 => .running
      | fuel + 1 =>
        let runCount := s.runEnd segment - s.positionInEntry
        let remainingScanCount := resultEnd - resultOffset
        if remainingScanCount < runCount then
          pure (s.advance remainingScanCount, fillRows data resultOffset remainingScanCount (s.element segment T))
        else
          scanLoop fuel s.forwardToNextRun (fillRows data resultOffset runCount (s.element segment T))
            (resultOffset + runCount) resultEnd
    else pure (s, data)

/-- `RLEScanPartialInternal` -/
def scanPartialInternal (entireVector : Bool) (s : RLEScanState) (scanCount : ℕ) (result : ScanVector T)
    (resultOffset : ℕ) : Outcome (RLEScanState × ScanVector T) :=
  if canEmitConstantVector entireVector s.positionInEntry (s.runEnd segment) scanCount then
    pure (s.scanConstant segment scanCount result)
  else do
    let (s, data) ← s.scanLoop segment scanCount result.data resultOffset (resultOffset + scanCount)
    return (s, ⟨false, data⟩)

/-- `RLEScanPartial` -/
def scanPartial (s : RLEScanState) (scanCount : ℕ) (result : ScanVector T) (resultOffset : ℕ) :
    Outcome (RLEScanState × ScanVector T) := s.scanPartialInternal segment false scanCount result resultOffset

/-- `RLEScan` -/
def scan (s : RLEScanState) (scanCount : ℕ) (result : ScanVector T) :
    Outcome (RLEScanState × ScanVector T) := s.scanPartialInternal segment true scanCount result 0

/-- The loop of `RLESelect` over the rest of the selected rows, of which `i` were before. -/
def selectLoop : RLEScanState → (ℕ → T) → ℕ → ℕ → List ℕ → Outcome (RLEScanState × (ℕ → T) × ℕ)
  | s, data, prevIdx, _, [] => pure (s, data, prevIdx)
  | s, data, prevIdx, i, nextIdx :: l =>
    if nextIdx < prevIdx then
      throw "Error in RLESelect - selection vector indices are not ordered"
    else do
      let s ← s.skip segment (nextIdx - prevIdx)
      selectLoop s (update data i (s.element segment T)) nextIdx (i + 1) l

/-- `RLESelect` -/
def select (s : RLEScanState) (vectorCount : ℕ) (result : ScanVector T) (sel : SelectionVector)
    (selCount : ℕ) : Outcome (RLEScanState × ScanVector T) :=
  if canEmitConstantVector true s.positionInEntry (s.runEnd segment) vectorCount then
    pure (s.scanConstant segment vectorCount result)
  else do
    let (s, data, prevIdx) ← s.selectLoop segment result.data 0 0 (sel.rows selCount)
    let s ← s.skip segment (vectorCount - prevIdx)
    return (s, ⟨false, data⟩)

variable (filter : T → Bool)

/-- `FilterSelection` over the values of all runs: the ones that match, and their number. As the counts are aligned, a
    few values may be behind the last run. -/
def filterRuns (totalRunCount : ℕ) : Option (ℕ → Bool) × ℕ :=
  let passes := fun e => filter (segment.data.load T (rleHeaderSize + e * sizeOfType T))
  (some fun e => e < totalRunCount && passes e, (range totalRunCount).countP passes)

/-- The filter is evaluated for all runs at once, if it has not been yet. -/
def evaluateFilter (s : RLEScanState) : RLEScanState := match s.matchingRuns with
  | some _ => s
  | none =>
    let (matchingRuns, matchingRunCount) :=
      filterRuns segment filter ((s.rleCountOffset - rleHeaderSize) / sizeOfType T)
    { s with matchingRuns, matchingRunCount }

/-- `matching_runs[entry_pos]` -/
def matchesRun (s : RLEScanState) : Bool := match s.matchingRuns with
  | none => false
  | some matching => matching s.entryPos

/-- The loop of `RLEFilter` over all rows. -/
def filterLoop : ℕ → RLEScanState → (ℕ → T) → List ℕ → ℕ → ℕ → Outcome (RLEScanState × (ℕ → T) × List ℕ)
  | fuel, s, data, matchingSel, resultOffset, resultEnd =>
    if resultOffset < resultEnd then
      match fuel with
      | 0 => .running
      | fuel + 1 =>
        let runCount := s.runEnd segment - s.positionInEntry
        let remainingScanCount := resultEnd - resultOffset
        let count := if remainingScanCount < runCount then remainingScanCount else runCount
        let data' := if s.matchesRun then fillRows data resultOffset count (s.element segment T) else data
        let matchingSel' := if s.matchesRun then matchingSel ++ (range count).map (resultOffset + ·) else matchingSel
        if remainingScanCount < runCount then pure (s.advance remainingScanCount, data', matchingSel')
        else filterLoop fuel s.forwardToNextRun data' matchingSel' (resultOffset + runCount) resultEnd
    else pure (s, data, matchingSel)

/-- The loop of `RLEFilter` over the rest of the rows that have been selected before. -/
def filterSelLoop : RLEScanState → (ℕ → T) → List ℕ → ℕ → List ℕ → Outcome (RLEScanState × (ℕ → T) × List ℕ × ℕ)
  | s, data, matchingSel, prevIdx, [] => pure (s, data, matchingSel, prevIdx)
  | s, data, matchingSel, prevIdx, readIdx :: l =>
    if readIdx < prevIdx then
      throw "Error in RLEFilter - selection vector indices are not ordered"
    else do
      let s ← s.skip segment (readIdx - prevIdx)
      if !s.matchesRun then filterSelLoop s data matchingSel readIdx l
      else
        filterSelLoop s (update data readIdx (s.element segment T)) (matchingSel ++ [readIdx]) readIdx l

/-- The end of `RLEFilter`: the selection is replaced if it has changed. -/
def filterResult (sel : SelectionVector) (selCount : ℕ) (matchingSel : List ℕ) : SelectionVector × ℕ :=
  if matchingSel.length ≠ selCount then (.ofRows matchingSel, matchingSel.length) else (sel, selCount)

/-- `RLEFilter` -/
def filterRows (s : RLEScanState) (vectorCount : ℕ) (result : ScanVector T) (sel : SelectionVector)
    (selCount : ℕ) : Outcome (RLEScanState × ScanVector T × SelectionVector × ℕ) :=
  let s := s.evaluateFilter segment filter
  if s.matchingRunCount = 0 then pure (s, result, sel, 0)
  else if sel.selVector.isNone then do
    let (s, data, matchingSel) ← s.filterLoop segment selCount result.data [] 0 selCount
    return (s, ⟨false, data⟩, filterResult sel selCount matchingSel)
  else do
    let (s, data, matchingSel, prevIdx) ← s.filterSelLoop segment result.data [] 0 (sel.rows selCount)
    let s ← s.skip segment (vectorCount - prevIdx)
    return (s, ⟨false, data⟩, filterResult sel selCount matchingSel)

/-- `RLEFetchRow` -/
def fetchRow (rowId : ℕ) (result : ScanVector T) (resultIdx : ℕ) : Outcome (ScanVector T) := do
  let s ← (new segment).skip segment rowId
  return ⟨result.constant, update result.data resultIdx (s.element segment T)⟩

end RLEScanState

/-! ## Positions -/

/-- The run of a row, and how many rows of the run are before it. -/
def cursor : List (Run T) → ℕ → ℕ × ℕ
  | [], pos => (0, pos)
  | r :: runs, pos =>
    if pos < r.2 then (0, pos) else ((cursor runs (pos - r.2)).1 + 1, (cursor runs (pos - r.2)).2)

theorem cursor_zero {runs : List (Run T)} (hpos : ∀ r ∈ runs, 0 < r.2) : cursor runs 0 = (0, 0) := by
  cases runs with
  | nil => rfl
  | cons r runs => exact if_pos (hpos r mem_cons_self)

/-- From a row on, there are rows of its run, and then the next run. -/
theorem exists_cursor {runs : List (Run T)} (hpos : ∀ r ∈ runs, 0 < r.2) : ∀ {pos : ℕ},
    pos < (expand runs).length → ∃ x n, 0 < n ∧ pos + n ≤ (expand runs).length ∧
      runs[(cursor runs pos).1]? = some (x, (cursor runs pos).2 + n) ∧
      (∀ k < n, (expand runs)[pos + k]? = some x ∧
        cursor runs (pos + k) = ((cursor runs pos).1, (cursor runs pos).2 + k)) ∧
      cursor runs (pos + n) = ((cursor runs pos).1 + 1, 0) := by
  induction runs with
  | nil => exact fun h => absurd h (Nat.not_lt_zero _)
  | cons r runs ih =>
    intro pos h
    obtain ⟨x, c⟩ := r
    have hexpand : expand ((x, c) :: runs) = replicate c x ++ expand runs := flatMap_cons
    have hrst : ∀ r ∈ runs, 0 < r.2 := fun r hr => hpos r (mem_cons_of_mem _ hr)
    rw [hexpand, length_append, length_replicate] at h ⊢
    by_cases hlt : pos < c
    · have hcurs : ∀ k < c - pos, cursor ((x, c) :: runs) (pos + k) = (0, pos + k) := fun k hk =>
        if_pos (Nat.add_lt_of_lt_sub' hk)
      have hz := hcurs 0 (Nat.sub_pos_of_lt hlt)
      rw [Nat.add_zero] at hz
      rw [hz]
      refine ⟨x, c - pos, Nat.sub_pos_of_lt hlt, ?_, ?_, fun k hk => ⟨?_, hcurs k hk⟩, ?_⟩
      · rw [Nat.add_sub_cancel' hlt.le]
        exact Nat.le_add_right _ _
      · rw [Nat.add_sub_cancel' hlt.le]
        rfl
      · have hk' := Nat.add_lt_of_lt_sub' hk
        rw [getElem?_append_left (by rwa [length_replicate]), getElem?_replicate, if_pos hk']
      · rw [Nat.add_sub_cancel' hlt.le, cursor, if_neg (lt_irrefl c), Nat.sub_self, cursor_zero hrst]
    · have hcurs : ∀ k, cursor ((x, c) :: runs) (pos + k) =
          ((cursor runs (pos - c + k)).1 + 1, (cursor runs (pos - c + k)).2) := by
        intro k
        rw [cursor, if_neg fun h => hlt ((Nat.le_add_right pos k).trans_lt h), Nat.sub_add_comm (not_lt.1 hlt)]
      have hz : cursor ((x, c) :: runs) pos = ((cursor runs (pos - c)).1 + 1, (cursor runs (pos - c)).2) := hcurs 0
      obtain ⟨y, n, hn, hle, hget, hrun, hnx⟩ := @ih hrst (pos - c) (by omega)
      rw [hz]
      refine ⟨y, n, hn, by omega, hget, fun k hk => ⟨?_, ?_⟩, ?_⟩
      · rw [getElem?_append_right (by rw [length_replicate]; omega), length_replicate,
          Nat.sub_add_comm (not_lt.1 hlt)]
        exact (hrun k hk).1
      · rw [hcurs, (hrun k hk).2]
      · rw [hcurs, hnx]

/-- A segment that can be read: its header is the offset of the counts, and its runs have rows. -/
structure ColumnSegment.Readable [Storable T] (segment : ColumnSegment) (runs : List (Run T)) : Prop where
  hasRuns : HasRuns segment.data (segment.data.loadNat 8 0 % 2 ^ 32) runs
  pos : ∀ r ∈ runs, 0 < r.2
  length_le : runs.length ≤ (segment.data.loadNat 8 0 % 2 ^ 32 - rleHeaderSize) / sizeOfType T

namespace RLEScanState

variable {segment : ColumnSegment} {runs : List (Run T)} {cache : Option (ℕ → Bool) × ℕ}
  {s : RLEScanState} {pos : ℕ}

/-- The scan is at a row, and has evaluated a filter or not. -/
structure At (segment : ColumnSegment) (runs : List (Run T)) (cache : Option (ℕ → Bool) × ℕ)
    (s : RLEScanState) (pos : ℕ) : Prop where
  cursor_eq : (s.entryPos, s.positionInEntry) = cursor runs pos
  offset_eq : s.rleCountOffset = segment.data.loadNat 8 0 % 2 ^ 32
  cache_eq : (s.matchingRuns, s.matchingRunCount) = cache

/-- The run at a row: from the row on, it has `n` rows. -/
structure RunAt [Storable T] (segment : ColumnSegment) (runs : List (Run T))
    (cache : Option (ℕ → Bool) × ℕ) (s : RLEScanState) (pos n : ℕ) (x : T) : Prop where
  count_pos : 0 < n
  le_length : pos + n ≤ (expand runs).length
  runEnd_eq : s.runEnd segment = s.positionInEntry + n
  element_eq : s.element segment T = x
  entryPos_lt : s.entryPos < runs.length
  value : ∀ k < n, (expand runs)[pos + k]? = some x
  advance : ∀ k < n, (s.advance k).At segment runs cache (pos + k)
  forward : s.forwardToNextRun.At segment runs cache (pos + n)

variable [Storable T]

theorem At.run (h : s.At segment runs cache pos) (hrd : segment.Readable runs)
    (hpos : pos < (expand runs).length) : ∃ n x, s.RunAt segment runs cache pos n x := by
  obtain ⟨x, n, hn, hle, hget, hrun, hnx⟩ := exists_cursor hrd.pos hpos
  rw [← h.cursor_eq] at hget hrun hnx
  refine ⟨n, x, hn, hle, ?_, ?_, (List.getElem?_eq_some_iff.1 hget).1, fun k hk => (hrun k hk).1,
    fun k hk => ⟨(hrun k hk).2.symm, h.offset_eq, h.cache_eq⟩, ⟨hnx.symm, h.offset_eq, h.cache_eq⟩⟩
  · rw [runEnd, h.offset_eq]
    exact hrd.hasRuns.count _ _ hget
  · exact hrd.hasRuns.value _ _ hget

namespace RunAt

variable {n : ℕ} {x : T}

theorem runCount_eq (h : s.RunAt segment runs cache pos n x) : s.runEnd segment - s.positionInEntry = n := by
  rw [h.runEnd_eq, Nat.add_sub_cancel_left]

/-- Rows of the run are read, at most all of them. -/
theorem normalize (h : s.RunAt segment runs cache pos n x) {k : ℕ} (hk : k ≤ n) :
    ((s.advance k).normalize segment).At segment runs cache (pos + k) := by
  have hexhausted : (s.advance k).exhaustedRun segment = decide (n ≤ k) := by
    change decide (s.runEnd segment ≤ s.positionInEntry + k) = _
    rw [h.runEnd_eq]
    exact decide_eq_decide.2 (Nat.add_le_add_iff_left)
  rw [RLEScanState.normalize, hexhausted]
  rcases hk.lt_or_eq with hlt | rfl
  · rw [decide_eq_false (not_le.2 hlt), if_neg Bool.false_ne_true]
    exact h.advance k hlt
  · rw [decide_eq_true le_rfl, if_pos rfl]
    exact h.forward

end RunAt

variable (hrd : segment.Readable runs)

include hrd

/-! ## Skips and scans -/

theorem At.skipLoop : ∀ (fuel k : ℕ) {s : RLEScanState} {pos : ℕ},
    k ≤ fuel → s.At segment runs cache pos → pos + k ≤ (expand runs).length →
      ∃ s', s.skipLoop segment fuel k = pure s' ∧ s'.At segment runs cache (pos + k) := by
  intro fuel
  induction fuel with
  | zero =>
    intro k s pos hk h _
    obtain rfl := Nat.le_zero.1 hk
    exact ⟨s, rfl, h⟩
  | succ fuel ih =>
    intro k s pos hk h hle
    cases k with
    | zero => exact ⟨s, rfl, h⟩
    | succ k =>
      obtain ⟨n, x, hrun⟩ := h.run hrd (Nat.lt_of_lt_of_le (Nat.lt_add_of_pos_right (Nat.succ_pos k)) hle)
      have hcnt := hrun.count_pos
      have hmin : min (k + 1) n ≤ k + 1 := min_le_left _ _
      have hnormalized := hrun.normalize (min_le_right (k + 1) n)
      obtain ⟨s', heq, h'⟩ := ih (k + 1 - min (k + 1) n) (by omega) hnormalized (by omega)
      refine ⟨s', ?_, ?_⟩
      · rw [RLEScanState.skipLoop, hrun.runCount_eq]
        exact heq
      · rwa [Nat.add_assoc, Nat.add_sub_cancel' hmin] at h'

theorem At.skip (h : s.At segment runs cache pos) {k : ℕ} (hle : pos + k ≤ (expand runs).length) :
    ∃ s', s.skip segment k = pure s' ∧ s'.At segment runs cache (pos + k) :=
  At.skipLoop hrd k k le_rfl h hle

omit hrd in
theorem scanLoop_self (fuel : ℕ) (s : RLEScanState) (data : ℕ → T) (offset : ℕ) :
    s.scanLoop segment fuel data offset offset = pure (s, data) := by
  cases fuel <;> exact if_neg (lt_irrefl offset)

theorem At.scanLoop : ∀ (fuel k : ℕ) {s : RLEScanState} {pos : ℕ}
    (data : ℕ → T) (offset : ℕ), k ≤ fuel → s.At segment runs cache pos →
      pos + k ≤ (expand runs).length → ∃ s' data',
        s.scanLoop segment fuel data offset (offset + k) = pure (s', data') ∧ s'.At segment runs cache (pos + k) ∧
            (∀ i < k, (expand runs)[pos + i]? = some (data' (offset + i))) ∧
              ∀ i, i < offset ∨ offset + k ≤ i → data' i = data i := by
  intro fuel
  induction fuel with
  | zero =>
    intro k s pos data offset hk h _
    obtain rfl := Nat.le_zero.1 hk
    exact ⟨s, data, scanLoop_self .., h, fun i hi => absurd hi (Nat.not_lt_zero i), fun _ _ => rfl⟩
  | succ fuel ih =>
    intro k s pos data offset hk h hle
    rcases k.eq_zero_or_pos with rfl | hkpos
    · exact ⟨s, data, scanLoop_self .., h, fun i hi => absurd hi (Nat.not_lt_zero i), fun _ _ => rfl⟩
    obtain ⟨n, x, hrun⟩ := h.run hrd (Nat.lt_of_lt_of_le (Nat.lt_add_of_pos_right hkpos) hle)
    have hn := hrun.count_pos
    rw [RLEScanState.scanLoop, if_pos (Nat.lt_add_of_pos_right hkpos)]
    rw [hrun.runCount_eq, Nat.add_sub_cancel_left, hrun.element_eq]
    by_cases hlt : k < n
    · rw [if_pos hlt]
      refine ⟨_, _, rfl, hrun.advance k hlt, fun i hi => ?_, fun i hi => fillRows_of_not_mem hi⟩
      rw [hrun.value i (hi.trans hlt), fillRows_of_mem hi]
    · rw [if_neg hlt]
      have hspl : offset + n + (k - n) = offset + k := by omega
      obtain ⟨s', data', heq, h', hvals, hfrm⟩ := ih (k - n) (fillRows data offset n x) (offset + n)
        (by omega) hrun.forward (by omega)
      rw [hspl] at heq hfrm
      refine ⟨s', data', heq, ?_, fun i hi => ?_, fun i hi => ?_⟩
      · rwa [Nat.add_assoc, Nat.add_sub_cancel' (not_lt.1 hlt)] at h'
      · rcases Nat.lt_or_ge i n with hin | hin
        · rw [hrun.value i hin, hfrm _ (.inl (Nat.add_lt_add_left hin offset)), fillRows_of_mem hin]
        · have hi' := hvals (i - n) (by omega)
          rwa [Nat.add_assoc, Nat.add_assoc, Nat.add_sub_cancel' hin] at hi'
      · rw [hfrm i (by omega), fillRows_of_not_mem (by omega)]

theorem At.scanConstant (h : s.At segment runs cache pos) {k : ℕ}
    {entireVector : Bool} (hle : pos + k ≤ (expand runs).length)
    (hemit : canEmitConstantVector entireVector s.positionInEntry (s.runEnd segment) k = true)
    (result : ScanVector T) :
    (s.scanConstant segment k result).1.At segment runs cache (pos + k) ∧
      ∀ i < k, (expand runs)[pos + i]? = some (s.element segment T) := by
  rw [canEmitConstantVector] at hemit
  by_cases hentire : entireVector
  · rw [hentire, Bool.not_true, if_neg Bool.false_ne_true] at hemit
    by_cases hk : k ≠ standardVectorSize
    · rw [if_pos hk] at hemit
      exact absurd hemit Bool.false_ne_true
    · rw [if_neg hk] at hemit
      have hfull : 0 < k := by
        rw [not_not.1 hk]
        decide
      obtain ⟨n, x, hrun⟩ := h.run hrd (by omega)
      have hkn : k ≤ n := hrun.runCount_eq ▸ of_decide_eq_true hemit
      refine ⟨hrun.normalize hkn, fun i hi => ?_⟩
      rw [hrun.value i (hi.trans_le hkn), hrun.element_eq]
  · rw [Bool.eq_false_iff.2 hentire] at hemit
    exact absurd hemit Bool.false_ne_true

theorem At.scanPartialInternal (h : s.At segment runs cache pos) {k : ℕ}
    (hle : pos + k ≤ (expand runs).length) (entireVector : Bool) (result : ScanVector T) (offset : ℕ) :
    ∃ s' result', s.scanPartialInternal segment entireVector k result offset = pure (s', result') ∧
      s'.At segment runs cache (pos + k) ∧ ∀ i < k, (expand runs)[pos + i]? = some (result'.value (offset + i)) := by
  rw [RLEScanState.scanPartialInternal]
  by_cases hemit : canEmitConstantVector entireVector s.positionInEntry (s.runEnd segment) k
  · rw [if_pos hemit]
    obtain ⟨h', hvals⟩ := h.scanConstant hrd hle hemit result
    refine ⟨_, _, rfl, h', fun i hi => ?_⟩
    rw [hvals i hi]
    exact congrArg some (update_self (0 : ℕ) _ result.data).symm
  · rw [if_neg hemit]
    obtain ⟨s', data', heq, h', hvals, -⟩ := At.scanLoop hrd k k result.data offset le_rfl h hle
    rw [heq]
    exact ⟨s', ⟨false, data'⟩, rfl, h', hvals⟩

/-! ## Selections -/

theorem At.selectLoop (pos : ℕ) (l : List ℕ) :
    ∀ {s : RLEScanState} (data : ℕ → T) (prevIdx i : ℕ), s.At segment runs cache (pos + prevIdx) →
      (prevIdx :: l).Pairwise (· ≤ ·) → (∀ j ∈ prevIdx :: l, pos + j ≤ (expand runs).length) →
        (∀ j ∈ l, pos + j < (expand runs).length) → ∃ s' data' lastIdx,
          s.selectLoop segment data prevIdx i l = pure (s', data', lastIdx) ∧
            s'.At segment runs cache (pos + lastIdx) ∧ lastIdx ∈ prevIdx :: l ∧
              (∀ k j, l[k]? = some j → (expand runs)[pos + j]? = some (data' (i + k))) ∧
                ∀ k < i, data' k = data k := by
  induction l with
  | nil =>
    intro s data prevIdx i h _ _ _
    exact ⟨s, data, prevIdx, rfl, h, mem_cons_self, fun _ _ h => absurd h (by simp), fun _ _ => rfl⟩
  | cons nextIdx l ih =>
    intro s data prevIdx i h hsort hle hlt
    obtain ⟨hfst, hsort⟩ := pairwise_cons.1 hsort
    have hprev := hfst nextIdx mem_cons_self
    have hnx := hlt nextIdx mem_cons_self
    have hmov : pos + prevIdx + (nextIdx - prevIdx) = pos + nextIdx := by omega
    obtain ⟨s₁, hskip, h₁⟩ := h.skip hrd (hmov.trans_le hnx.le)
    rw [hmov] at h₁
    obtain ⟨n, x, hrun⟩ := h₁.run hrd hnx
    obtain ⟨s', data', lastIdx, heq, h', hlst, hvals, hfrm⟩ := ih
      (update data i x) nextIdx (i + 1) h₁ hsort
      (fun j hj => hle j (mem_cons_of_mem _ hj)) fun j hj => hlt j (mem_cons_of_mem _ hj)
    refine ⟨s', data', lastIdx, ?_, h', mem_cons_of_mem _ hlst, fun k j hj => ?_, fun k hk => ?_⟩
    · rw [RLEScanState.selectLoop, if_neg (not_lt.2 hprev), hskip, pure_bind, hrun.element_eq]
      exact heq
    · cases k with
      | zero =>
        obtain rfl : nextIdx = j := Option.some.inj hj
        rw [Nat.add_zero, hfrm i (Nat.lt_succ_self i), update_self]
        exact hrun.value 0 hrun.count_pos
      | succ k =>
        rw [Nat.add_comm k 1, ← Nat.add_assoc]
        exact hvals k j hj
    · rw [hfrm k (Nat.lt_succ_of_lt hk), update_of_ne hk.ne]

/-- The rows of a vector that are selected: their indexes do not decrease. -/
structure Selects (n : ℕ) (sel : SelectionVector) (selCount : ℕ) : Prop where
  sorted : (sel.rows selCount).Pairwise (· ≤ ·)
  lt : ∀ i ∈ sel.rows selCount, i < n

theorem At.select (h : s.At segment runs cache pos) {n selCount : ℕ}
    {sel : SelectionVector} (hle : pos + n ≤ (expand runs).length) (hsel : Selects n sel selCount)
    (result : ScanVector T) :
    ∃ s' result', s.select segment n result sel selCount = pure (s', result') ∧
      s'.At segment runs cache (pos + n) ∧ ∀ k i, (sel.rows selCount)[k]? = some i →
        (expand runs)[pos + i]? = some (result'.value k) := by
  rw [RLEScanState.select]
  by_cases hemit : canEmitConstantVector true s.positionInEntry (s.runEnd segment) n
  · rw [if_pos hemit]
    obtain ⟨h', hvals⟩ := h.scanConstant hrd hle hemit result
    refine ⟨_, _, rfl, h', fun k i hi => ?_⟩
    rw [hvals i (hsel.lt i (mem_of_getElem? hi))]
    exact congrArg some (update_self (0 : ℕ) _ result.data).symm
  · rw [if_neg hemit]
    obtain ⟨s₁, data', lastIdx, heq, h₁, hlst, hvals, -⟩ := At.selectLoop hrd pos (sel.rows selCount)
      result.data 0 0 h (pairwise_cons.2 ⟨fun j _ => Nat.zero_le j, hsel.sorted⟩)
      (forall_mem_cons.2 ⟨(Nat.le_add_right pos n).trans hle,
        fun j hj => (Nat.add_lt_add_left (hsel.lt j hj) pos).le.trans hle⟩)
      fun j hj => (Nat.add_lt_add_left (hsel.lt j hj) pos).trans_le hle
    have hlst' : lastIdx ≤ n := by
      rcases mem_cons.1 hlst with rfl | hmem
      · exact Nat.zero_le n
      · exact (hsel.lt lastIdx hmem).le
    have hmov : pos + lastIdx + (n - lastIdx) = pos + n := by omega
    obtain ⟨s', hskip, h'⟩ := h₁.skip hrd (hmov.trans_le hle)
    rw [heq, pure_bind]
    dsimp only
    rw [hskip, pure_bind]
    refine ⟨s', ⟨false, data'⟩, rfl, hmov ▸ h', fun k i hi => ?_⟩
    rw [hvals k i hi, Nat.zero_add]
    rfl

/-! ## Filters -/

section Filter

variable {filter : T → Bool}

/-- Whether the value of a row passes. -/
def Passes (runs : List (Run T)) (filter : T → Bool) (pos : ℕ) : Bool := ((expand runs)[pos]?).any filter

/-- The runs that match the filter. -/
abbrev filtered (segment : ColumnSegment) (filter : T → Bool) : Option (ℕ → Bool) × ℕ :=
  filterRuns segment filter ((segment.data.loadNat 8 0 % 2 ^ 32 - rleHeaderSize) / sizeOfType T)

/-- No filter has been evaluated, or this one. -/
def Cached (segment : ColumnSegment) (filter : T → Bool) (cache : Option (ℕ → Bool) × ℕ) : Prop :=
  cache.1 = none ∨ cache = filtered segment filter

omit hrd in
theorem At.evaluateFilter (h : s.At segment runs cache pos) (hcache : Cached segment filter cache) :
    (s.evaluateFilter segment filter).At segment runs (filtered segment filter) pos ∧
      (s.evaluateFilter segment filter).entryPos = s.entryPos ∧
        (s.evaluateFilter segment filter).positionInEntry = s.positionInEntry := by
  have hmatch : s.matchingRuns = cache.1 := congrArg Prod.fst h.cache_eq
  rw [RLEScanState.evaluateFilter]
  rcases hcache with hno | rfl
  · rw [hmatch, hno]
    refine ⟨⟨h.cursor_eq, h.offset_eq, ?_⟩, rfl, rfl⟩
    rw [h.offset_eq]
  · rw [hmatch]
    exact ⟨h, rfl, rfl⟩

theorem RunAt.matchesRun {n : ℕ} {x : T} (hrun : s.RunAt segment runs (filtered segment filter) pos n x)
    (h : s.At segment runs (filtered segment filter) pos) :
    s.matchesRun = filter x := by
  have hmatch : s.matchingRuns = (filtered segment filter).1 := congrArg Prod.fst h.cache_eq
  have hlt := decide_eq_true (hrun.entryPos_lt.trans_le hrd.length_le)
  rw [RLEScanState.matchesRun, hmatch]
  change (decide (s.entryPos < _) && filter (s.element segment T)) = filter x
  rw [hlt, Bool.true_and, hrun.element_eq]

/-- If no run matches, no row passes. -/
theorem passes_eq_false (hcnt : (filtered segment filter).2 = 0) : ∀ x ∈ expand runs, filter x = false := by
  intro x hx
  obtain ⟨r, hr, hxr⟩ := mem_flatMap.1 hx
  obtain ⟨e, he⟩ := mem_iff_getElem?.1 hr
  have hlt := (List.getElem?_eq_some_iff.1 he).1.trans_le hrd.length_le
  have hnot := countP_eq_zero.1 hcnt e (mem_range.2 hlt)
  rw [hrd.hasRuns.value e r he] at hnot
  rw [(mem_replicate.1 hxr).2]
  exact Bool.eq_false_iff.2 hnot

omit hrd [Storable T] in
theorem passes_of_value {x : T} (h : (expand runs)[pos]? = some x) : Passes runs filter pos = filter x := by
  rw [Passes, h]
  rfl

omit hrd in
theorem filterLoop_self (fuel : ℕ) (s : RLEScanState) (data : ℕ → T) (matchingSel : List ℕ) (offset : ℕ) :
    s.filterLoop segment fuel data matchingSel offset offset = pure (s, data, matchingSel) := by
  cases fuel <;> exact if_neg (lt_irrefl offset)

omit hrd [Storable T] in
/-- The rows of a part of a run are added to the ones that have been selected, if the run matches. -/
theorem selected_run {n offset : ℕ} {x : T} {data : ℕ → T}
    (hx : ∀ k < n, (expand runs)[pos + (offset + k)]? = some x)
    (hdata : ∀ i < offset, Passes runs filter (pos + i) → (expand runs)[pos + i]? = some (data i)) :
    (if filter x then (range offset).filter (fun i => Passes runs filter (pos + i)) ++
        (range n).map (offset + ·) else (range offset).filter fun i => Passes runs filter (pos + i)) =
      (range (offset + n)).filter (fun i => Passes runs filter (pos + i)) ∧
    ∀ i < offset + n, Passes runs filter (pos + i) →
      (expand runs)[pos + i]? = some ((if filter x then fillRows data offset n x else data) i) := by
  have hpass : ∀ k < n, Passes runs filter (pos + (offset + k)) = filter x := fun k hk =>
    passes_of_value (hx k hk)
  have hcase : ∀ i < offset + n, i < offset ∨ ∃ k < n, i = offset + k := by
    intro i hi
    rcases Nat.lt_or_ge i offset with h | h
    · exact .inl h
    · exact .inr ⟨i - offset, Nat.sub_lt_left_of_lt_add h hi, (Nat.add_sub_cancel' h).symm⟩
  rw [range_add, filter_append]
  by_cases hfilt : filter x
  · rw [if_pos hfilt, if_pos hfilt]
    refine ⟨congrArg _ (filter_eq_self.2 fun i hi => ?_).symm, fun i hi hi' => ?_⟩
    · obtain ⟨k, hk, rfl⟩ := mem_map.1 hi
      rw [hpass k (mem_range.1 hk), hfilt]
    · rcases hcase i hi with hlt | ⟨k, hk, rfl⟩
      · rw [fillRows_of_not_mem (.inl hlt)]
        exact hdata i hlt hi'
      · rw [fillRows_of_mem hk, hx k hk]
  · rw [if_neg hfilt, if_neg hfilt]
    refine ⟨?_, fun i hi hi' => ?_⟩
    · have hnil : ((range n).map (offset + ·)).filter (fun i => Passes runs filter (pos + i)) = [] := by
        refine filter_eq_nil_iff.2 fun i hi => ?_
        obtain ⟨k, hk, rfl⟩ := mem_map.1 hi
        rwa [hpass k (mem_range.1 hk)]
      rw [hnil, append_nil]
    · rcases hcase i hi with hlt | ⟨k, hk, rfl⟩
      · exact hdata i hlt hi'
      · exact absurd ((hpass k hk).symm.trans hi') hfilt

theorem At.filterLoop (pos : ℕ) : ∀ (fuel k : ℕ) {s : RLEScanState}
    (data : ℕ → T) (offset : ℕ), k ≤ fuel → s.At segment runs (filtered segment filter) (pos + offset) →
      pos + (offset + k) ≤ (expand runs).length →
        (∀ i < offset, Passes runs filter (pos + i) → (expand runs)[pos + i]? = some (data i)) →
          ∃ s' data', s.filterLoop segment fuel data
              ((range offset).filter fun i => Passes runs filter (pos + i)) offset (offset + k) =
                pure (s', data', (range (offset + k)).filter fun i => Passes runs filter (pos + i)) ∧
            s'.At segment runs (filtered segment filter) (pos + (offset + k)) ∧
              ∀ i < offset + k, Passes runs filter (pos + i) → (expand runs)[pos + i]? = some (data' i) := by
  intro fuel
  induction fuel with
  | zero =>
    intro k s data offset hk h _ hdata
    obtain rfl := Nat.le_zero.1 hk
    exact ⟨s, data, filterLoop_self .., h, hdata⟩
  | succ fuel ih =>
    intro k s data offset hk h hle hdata
    rcases k.eq_zero_or_pos with rfl | hkpos
    · exact ⟨s, data, filterLoop_self .., h, hdata⟩
    obtain ⟨n, x, hrun⟩ := h.run hrd (by omega)
    have hn := hrun.count_pos
    have hx : ∀ j < n, (expand runs)[pos + (offset + j)]? = some x := by
      intro j hj
      rw [← Nat.add_assoc]
      exact hrun.value j hj
    rw [RLEScanState.filterLoop, if_pos (Nat.lt_add_of_pos_right hkpos)]
    rw [hrun.runCount_eq, Nat.add_sub_cancel_left, hrun.element_eq, hrun.matchesRun hrd h]
    by_cases hlt : k < n
    · rw [if_pos hlt, if_pos hlt]
      obtain ⟨hsel, hdata'⟩ := selected_run (n := k) (fun j hj => hx j (hj.trans hlt)) hdata
      rw [hsel]
      exact ⟨_, _, rfl, Nat.add_assoc pos offset k ▸ hrun.advance k hlt, hdata'⟩
    · rw [if_neg hlt, if_neg hlt]
      obtain ⟨hsel, hdata'⟩ := selected_run hx hdata
      have hspl : offset + n + (k - n) = offset + k := by omega
      have hforward := hrun.forward
      rw [Nat.add_assoc] at hforward
      obtain ⟨s', data', heq, h', hvals⟩ := ih (k - n) _ (offset + n) (by omega) hforward (by omega) hdata'
      rw [hspl] at heq h' hvals
      rw [hsel]
      exact ⟨s', data', heq, h', hvals⟩

theorem At.filterSelLoop (pos : ℕ) (l : List ℕ) :
    ∀ {s : RLEScanState} (data : ℕ → T) (matchingSel : List ℕ) (prevIdx : ℕ),
      s.At segment runs (filtered segment filter) (pos + prevIdx) → (prevIdx :: l).Pairwise (· ≤ ·) →
        (∀ j ∈ l, pos + j < (expand runs).length) →
          (∀ j ∈ matchingSel, (expand runs)[pos + j]? = some (data j)) → ∃ s' data' lastIdx,
            s.filterSelLoop segment data matchingSel prevIdx l = pure (s', data',
              matchingSel ++ l.filter (fun i => Passes runs filter (pos + i)), lastIdx) ∧
            s'.At segment runs (filtered segment filter) (pos + lastIdx) ∧ lastIdx ∈ prevIdx :: l ∧
              ∀ j ∈ matchingSel ++ l.filter (fun i => Passes runs filter (pos + i)),
                (expand runs)[pos + j]? = some (data' j) := by
  induction l with
  | nil =>
    intro s data matchingSel prevIdx h _ _ hdata
    rw [filter_nil, append_nil]
    exact ⟨s, data, prevIdx, rfl, h, mem_cons_self, hdata⟩
  | cons readIdx l ih =>
    intro s data matchingSel prevIdx h hsort hlt hdata
    obtain ⟨hfst, hsort⟩ := pairwise_cons.1 hsort
    have hprev := hfst readIdx mem_cons_self
    have hnx := hlt readIdx mem_cons_self
    have hmov : pos + prevIdx + (readIdx - prevIdx) = pos + readIdx := by omega
    obtain ⟨s₁, hskip, h₁⟩ := h.skip hrd (hmov.trans_le hnx.le)
    rw [hmov] at h₁
    obtain ⟨n, x, hrun⟩ := h₁.run hrd hnx
    have hval : (expand runs)[pos + readIdx]? = some x := hrun.value 0 hrun.count_pos
    have hrst : ∀ j ∈ l, pos + j < (expand runs).length := fun j hj => hlt j (mem_cons_of_mem _ hj)
    rw [RLEScanState.filterSelLoop, if_neg (not_lt.2 hprev), hskip, pure_bind, hrun.matchesRun hrd h₁,
      filter_cons, passes_of_value hval]
    by_cases hfilt : filter x
    · rw [hfilt, if_pos rfl, Bool.not_true, if_neg Bool.false_ne_true, hrun.element_eq]
      obtain ⟨s', data', lastIdx, heq, h', hlst, hvals⟩ := ih (update data readIdx x)
        (matchingSel ++ [readIdx]) readIdx h₁ hsort hrst fun j hj => by
          by_cases hj' : j = readIdx
          · rw [hj', update_self, hval]
          · rw [update_of_ne hj']
            exact hdata j ((mem_append.1 hj).resolve_right fun h => hj' (mem_singleton.1 h))
      rw [append_assoc, singleton_append] at heq hvals
      exact ⟨s', data', lastIdx, heq, h', mem_cons_of_mem _ hlst, hvals⟩
    · rw [Bool.eq_false_iff.2 hfilt, Bool.not_false, if_pos rfl, if_neg Bool.false_ne_true]
      obtain ⟨s', data', lastIdx, heq, h', hlst, hvals⟩ := ih data matchingSel readIdx h₁ hsort hrst hdata
      exact ⟨s', data', lastIdx, heq, h', mem_cons_of_mem _ hlst, hvals⟩

omit hrd in
theorem rows_ofRows (l : List ℕ) : (SelectionVector.ofRows l).rows l.length = l := by
  refine ext_getElem (by rw [SelectionVector.rows, length_map, length_range]) fun i _ hi => ?_
  refine (getElem_map _).trans ?_
  rw [getElem_range]
  exact getD_eq_getElem _ _ hi

omit hrd in
theorem rows_filterResult {sel : SelectionVector} {selCount : ℕ} {p : ℕ → Bool} :
    (filterResult sel selCount ((sel.rows selCount).filter p)).1.rows
        (filterResult sel selCount ((sel.rows selCount).filter p)).2 = (sel.rows selCount).filter p := by
  rw [filterResult]
  by_cases hlen : ((sel.rows selCount).filter p).length ≠ selCount
  · rw [if_pos hlen]
    exact rows_ofRows _
  · rw [if_neg hlen]
    refine (filter_eq_self.2 (length_filter_eq_length_iff.1 ?_)).symm
    rw [not_not.1 hlen, SelectionVector.rows, length_map, length_range]

/-- The filter selects the rows that pass. If there is a run that matches, it moves the position behind
    the rows. -/
theorem At.filterRows (h : s.At segment runs cache pos) (hcache : Cached segment filter cache)
    {n selCount : ℕ} {sel : SelectionVector}
    (hle : pos + n ≤ (expand runs).length) (hsel : Selects n sel selCount)
    (hall : sel.selVector = none → selCount = n) (result : ScanVector T) :
    ∃ s' result' sel' selCount',
      s.filterRows segment filter n result sel selCount = pure (s', result', sel', selCount') ∧
        s'.At segment runs (filtered segment filter)
          (if (filtered segment filter).2 = 0 then pos else pos + n) ∧
          sel'.rows selCount' = (sel.rows selCount).filter (fun i => Passes runs filter (pos + i)) ∧
            ∀ i ∈ sel'.rows selCount', (expand runs)[pos + i]? = some (result'.value i) := by
  obtain ⟨h₀, -, -⟩ := h.evaluateFilter hcache
  obtain ⟨s₀, hs₀⟩ : ∃ s₀, s₀ = s.evaluateFilter segment filter := ⟨_, rfl⟩
  have hcnt : s₀.matchingRunCount = (filtered segment filter).2 := congrArg Prod.snd (hs₀ ▸ h₀.cache_eq)
  rw [← hs₀] at h₀
  obtain ⟨q, hq⟩ : ∃ q, q = filterResult sel selCount
    ((sel.rows selCount).filter fun i => Passes runs filter (pos + i)) := ⟨_, rfl⟩
  have hres : q.1.rows q.2 = (sel.rows selCount).filter fun i => Passes runs filter (pos + i) :=
    hq ▸ rows_filterResult
  rw [RLEScanState.filterRows, ← hs₀, hcnt]
  by_cases hz : (filtered segment filter).2 = 0
  · rw [if_pos hz, if_pos hz]
    refine ⟨s₀, result, sel, 0, rfl, h₀, ?_, fun i hi => absurd hi not_mem_nil⟩
    refine (filter_eq_nil_iff.2 fun i hi => ?_).symm
    have hlt : pos + i < (expand runs).length := (Nat.add_lt_add_left (hsel.lt i hi) pos).trans_le hle
    rw [passes_of_value (getElem?_eq_getElem hlt), passes_eq_false hrd hz _ (getElem_mem hlt)]
    exact Bool.false_ne_true
  · rw [if_neg hz, if_neg hz]
    by_cases hno : sel.selVector.isNone
    · obtain rfl := hall (Option.isNone_iff_eq_none.1 hno)
      have hrs : sel.rows selCount = range selCount := by
        refine (map_congr_left fun i _ => ?_).trans (map_id' _)
        rw [SelectionVector.getIndex, Option.isNone_iff_eq_none.1 hno]
      obtain ⟨s', data', heq, h', hvals⟩ := At.filterLoop hrd pos selCount selCount result.data 0 le_rfl h₀
        (by rwa [Nat.zero_add]) fun i hi => absurd hi (Nat.not_lt_zero i)
      rw [Nat.zero_add] at heq h' hvals
      rw [range_zero, filter_nil] at heq
      rw [if_pos hno, heq, pure_bind, ← hrs]
      dsimp only
      rw [← hq]
      refine ⟨s', ⟨false, data'⟩, q.1, q.2, rfl, h', hres, fun i hi => ?_⟩
      rw [hres, hrs] at hi
      obtain ⟨hi, hpass⟩ := mem_filter.1 hi
      exact hvals i (mem_range.1 hi) hpass
    · rw [if_neg hno]
      obtain ⟨s₁, data', lastIdx, heq, h₁, hlst, hvals⟩ := At.filterSelLoop hrd pos (sel.rows selCount)
        result.data [] 0 h₀ (pairwise_cons.2 ⟨fun j _ => Nat.zero_le j, hsel.sorted⟩)
        (fun j hj => (Nat.add_lt_add_left (hsel.lt j hj) pos).trans_le hle)
        fun j hj => absurd hj not_mem_nil
      have hlst' : lastIdx ≤ n := by
        rcases mem_cons.1 hlst with rfl | hmem
        · exact Nat.zero_le n
        · exact (hsel.lt lastIdx hmem).le
      have hmov : pos + lastIdx + (n - lastIdx) = pos + n := by omega
      obtain ⟨s', hskip, h'⟩ := h₁.skip hrd (hmov.trans_le hle)
      rw [nil_append] at heq hvals
      rw [heq, pure_bind]
      dsimp only
      rw [hskip, pure_bind, ← hq]
      refine ⟨s', ⟨false, data'⟩, q.1, q.2, rfl, hmov ▸ h', hres, fun i hi => ?_⟩
      rw [hres] at hi
      exact hvals i hi

end Filter

/-! ## Runs of a scan -/

/-- What a scan of a segment returns when it is at a row: the values of the segment. -/
structure Serves (segment : ColumnSegment) (filter : T → Bool) (values : List T) (s : RLEScanState)
    (pos : ℕ) : Prop where
  scan : ∀ n result, pos + n ≤ values.length → ∃ s' result',
    s.scan segment n result = pure (s', result') ∧ ∀ i < n, values[pos + i]? = some (result'.value i)
  scanPartial : ∀ n result offset, pos + n ≤ values.length → ∃ s' result',
    s.scanPartial segment n result offset = pure (s', result') ∧
      ∀ i < n, values[pos + i]? = some (result'.value (offset + i))
  skip : ∀ n, pos + n ≤ values.length → ∃ s', s.skip segment n = pure s'
  select : ∀ n result sel selCount, pos + n ≤ values.length → Selects n sel selCount → ∃ s' result',
    s.select segment n result sel selCount = pure (s', result') ∧
      ∀ k i, (sel.rows selCount)[k]? = some i → values[pos + i]? = some (result'.value k)
  filterRows : ∀ n result sel selCount, pos + n ≤ values.length → Selects n sel selCount →
    (sel.selVector = none → selCount = n) → ∃ s' result' sel' selCount',
      s.filterRows segment filter n result sel selCount = pure (s', result', sel', selCount') ∧
        sel'.rows selCount' = (sel.rows selCount).filter (fun i => (values[pos + i]?).any filter) ∧
          (∀ i ∈ sel'.rows selCount', values[pos + i]? = some (result'.value i)) ∧
            ((∃ x ∈ values, filter x = true) → ∀ s'' result'',
              s.scan segment n result = pure (s'', result'') →
                (s'.entryPos, s'.positionInEntry) = (s''.entryPos, s''.positionInEntry))

/-- A call of a reader that stays inside the segment. A filter that no run matches does not move the
    scan. -/
inductive Next (segment : ColumnSegment) (filter : T → Bool) (count : ℕ) :
    ℕ × RLEScanState → ℕ × RLEScanState → Prop
  | scan (pos n : ℕ) (s s' : RLEScanState) (result result' : ScanVector T) : pos + n ≤ count →
      s.scan segment n result = pure (s', result') → Next segment filter count (pos, s) (pos + n, s')
  | scanPartial (pos n : ℕ) (s s' : RLEScanState) (result result' : ScanVector T) (offset : ℕ) :
      pos + n ≤ count → s.scanPartial segment n result offset = pure (s', result') →
        Next segment filter count (pos, s) (pos + n, s')
  | skip (pos n : ℕ) (s s' : RLEScanState) : pos + n ≤ count → s.skip segment n = pure s' →
      Next segment filter count (pos, s) (pos + n, s')
  | select (pos n : ℕ) (s s' : RLEScanState) (result result' : ScanVector T) (sel : SelectionVector)
      (selCount : ℕ) : pos + n ≤ count → Selects n sel selCount →
        s.select segment n result sel selCount = pure (s', result') →
          Next segment filter count (pos, s) (pos + n, s')
  | filterRows (pos n : ℕ) (s s' : RLEScanState) (result result' : ScanVector T)
      (sel sel' : SelectionVector) (selCount selCount' : ℕ) : pos + n ≤ count → Selects n sel selCount →
        (sel.selVector = none → selCount = n) →
          s.filterRows segment filter n result sel selCount = pure (s', result', sel', selCount') →
            Next segment filter count (pos, s) (if s'.matchingRunCount = 0 then pos else pos + n, s')

variable {filter : T → Bool}

theorem At.next {p p' : ℕ × RLEScanState} (hnx : Next segment filter (expand runs).length p p')
    (h : ∃ cache, Cached segment filter cache ∧ p.2.At segment runs cache p.1) :
    ∃ cache, Cached segment filter cache ∧ p'.2.At segment runs cache p'.1 := by
  obtain ⟨cache, hcache, h⟩ := h
  have hinj : ∀ {α : Type} {x y : α}, (pure x : Outcome α) = pure y → x = y := fun h =>
    Except.ok.inj (Option.some.inj h)
  cases hnx with
  | scan pos n s s' result result' hle heq =>
    obtain ⟨s₁, result₁, heq₁, h₁, -⟩ := h.scanPartialInternal hrd hle true result 0
    have hs : s' = s₁ := congrArg Prod.fst (hinj (heq.symm.trans heq₁))
    exact ⟨cache, hcache, hs ▸ h₁⟩
  | scanPartial pos n s s' result result' offset hle heq =>
    obtain ⟨s₁, result₁, heq₁, h₁, -⟩ := h.scanPartialInternal hrd hle false result offset
    have hs : s' = s₁ := congrArg Prod.fst (hinj (heq.symm.trans heq₁))
    exact ⟨cache, hcache, hs ▸ h₁⟩
  | skip pos n s s' hle heq =>
    obtain ⟨s₁, heq₁, h₁⟩ := h.skip hrd hle
    exact ⟨cache, hcache, hinj (heq.symm.trans heq₁) ▸ h₁⟩
  | select pos n s s' result result' sel selCount hle hsel heq =>
    obtain ⟨s₁, result₁, heq₁, h₁, -⟩ := h.select hrd hle hsel result
    have hs : s' = s₁ := congrArg Prod.fst (hinj (heq.symm.trans heq₁))
    exact ⟨cache, hcache, hs ▸ h₁⟩
  | filterRows pos n s s' result result' sel sel' selCount selCount' hle hsel hall heq =>
    obtain ⟨s₁, result₁, sel₁, selCount₁, heq₁, h₁, -⟩ := h.filterRows hrd hcache hle hsel hall result
    have hs : s' = s₁ := congrArg Prod.fst (hinj (heq.symm.trans heq₁))
    have hcnt : s₁.matchingRunCount = (filtered segment filter).2 := congrArg Prod.snd h₁.cache_eq
    rw [hs, hcnt]
    exact ⟨_, .inr rfl, h₁⟩

theorem At.serves (h : s.At segment runs cache pos) (hcache : Cached segment filter cache) :
    s.Serves segment filter (expand runs) pos where
  scan n result hle := by
    obtain ⟨s', result', heq, -, hvals⟩ := h.scanPartialInternal hrd hle true result 0
    exact ⟨s', result', heq, fun i hi => by rw [hvals i hi, Nat.zero_add]⟩
  scanPartial n result offset hle := by
    obtain ⟨s', result', heq, -, hvals⟩ := h.scanPartialInternal hrd hle false result offset
    exact ⟨s', result', heq, hvals⟩
  skip n hle := by
    obtain ⟨s', heq, -⟩ := h.skip hrd hle
    exact ⟨s', heq⟩
  select n result sel selCount hle hsel := by
    obtain ⟨s', result', heq, -, hvals⟩ := h.select hrd hle hsel result
    exact ⟨s', result', heq, hvals⟩
  filterRows n result sel selCount hle hsel hall := by
    obtain ⟨s', result', sel', selCount', heq, h', hrs, hvals⟩ := h.filterRows hrd hcache hle hsel hall result
    refine ⟨s', result', sel', selCount', heq, hrs, hvals, ?_⟩
    rintro ⟨x, hx, hpass⟩ s'' result'' hscan
    obtain ⟨s₁, result₁, heq₁, h₁, -⟩ := h.scanPartialInternal hrd hle true result 0
    have hs : s'' = s₁ := congrArg Prod.fst (Except.ok.inj (Option.some.inj (hscan.symm.trans heq₁)))
    have hcnt : (filtered segment filter).2 ≠ 0 := fun hz =>
      absurd hpass (Bool.eq_false_iff.1 (passes_eq_false hrd hz x hx))
    rw [if_neg hcnt] at h'
    rw [h'.cursor_eq, hs, h₁.cursor_eq]

theorem at_new : (new segment).At segment runs (none, 0) 0 :=
  ⟨(cursor_zero hrd.pos).symm, rfl, rfl⟩

section

variable {p : ℕ × RLEScanState}
  (hp : Reachable (fun p => p = (0, new segment)) (Next segment filter (expand runs).length) p)

include hp

/-- Whatever readers are called, the scan is at the row that they have come to. -/
theorem at_of_reachable :
    ∃ cache, Cached segment filter cache ∧ p.2.At segment runs cache p.1 := by
  refine hp.invariant (fun p hp => ⟨(none, 0), .inl rfl, ?_⟩) fun p p' _ h hnx => At.next hrd hnx h
  rw [hp]
  exact at_new hrd

theorem serves_of_reachable :
    p.2.Serves segment filter (expand runs) p.1 := by
  obtain ⟨cache, hcache, h⟩ := at_of_reachable hrd hp
  exact h.serves hrd hcache

end

theorem fetchRow_eq {row : ℕ} (hrow : row < (expand runs).length)
    (result : ScanVector T) (resultIdx : ℕ) : ∃ x, (expand runs)[row]? = some x ∧
      fetchRow segment row result resultIdx = pure ⟨result.constant, update result.data resultIdx x⟩ := by
  obtain ⟨s', hskip, h'⟩ := (at_new hrd).skip hrd ((Nat.zero_add row).trans_le hrow.le)
  rw [Nat.zero_add] at h'
  obtain ⟨n, x, hrun⟩ := h'.run hrd hrow
  refine ⟨x, hrun.value 0 hrun.count_pos, ?_⟩
  rw [fetchRow, hskip, pure_bind, hrun.element_eq]

end RLEScanState

/-! ## Segments that are read -/

section ReadBack

variable [Storable T] {blockSize : ℕ} {segment segment' : ColumnSegment} {runs : List (Run T)}

/-- A segment that was written can be read, wherever its bytes are. -/
theorem ColumnSegment.Encodes.readable (h : segment.Encodes blockSize runs) (hblk : blockSize < 2 ^ 32)
    (hstor : segment.StoredAs segment') {k : ℕ} (hpos : ∀ r ∈ runs.take k, 0 < r.2) :
    segment'.Readable (runs.take k) := by
  have hminimal := le_alignValue (by decide : 0 < 8) (RLECompressState.countsOffset T runs.length)
  have hsz := h.size_eq
  have hrd : ∀ offset w, offset + w ≤ segment.segmentSize →
      segment'.data.read offset w = segment.data.read offset w := fun offset w hle =>
    Memory.read_congr fun i hi => hstor.data_eq _ ((Nat.add_lt_add_left hi offset).trans_le hle)
  have hhead : 0 + 8 ≤ RLECompressState.countsOffset T runs.length := Nat.le_add_right _ _
  have hoff : segment'.data.loadNat 8 0 % 2 ^ 32 = alignValue 8 (RLECompressState.countsOffset T runs.length) := by
    rw [Memory.loadNat, hrd 0 8 (by omega)]
    exact (congrArg (· % 2 ^ 32) h.offset_eq).trans (Nat.mod_eq_of_lt (h.offset_le.trans_lt hblk))
  have hlen : (runs.take k).length ≤ runs.length := length_take_le' k runs
  refine ⟨?_, hpos, ?_⟩
  · rw [hoff]
    refine (h.hasRuns.congr (fun e he => hrd _ _ ?_) fun e he => hrd _ _ ?_).take k
    · have hval := RLECompressState.value_le T he
      omega
    · omega
  · rw [hoff]
    refine hlen.trans ((Nat.le_div_iff_mul_le Storable.size_pos).2 ?_)
    exact Nat.le_sub_of_add_le' hminimal

/-- A segment has values: wherever its bytes are stored, they are what all readers return, in any order
    of calls. -/
structure ColumnSegment.ReadsAs (segment : ColumnSegment) (values : List T) : Prop where
  serves : ∀ segment', segment.StoredAs segment' → ∀ (filter : T → Bool) (p : ℕ × RLEScanState),
    Reachable (fun p => p = (0, RLEScanState.new segment')) (RLEScanState.Next segment' filter values.length) p →
      p.2.Serves segment' filter values p.1
  fetchRow : ∀ segment', segment.StoredAs segment' → ∀ row < values.length, ∀ (result : ScanVector T) resultIdx,
    ∃ x, values[row]? = some x ∧ RLEScanState.fetchRow segment' row result resultIdx =
      pure ⟨result.constant, update result.data resultIdx x⟩

theorem ColumnSegment.HasValues.readsAs {values : List T} (h : segment.HasValues blockSize values)
    (hblk : blockSize < 2 ^ 32) : segment.ReadsAs values := by
  obtain ⟨runs, henc, ⟨k, hpos, hexpand⟩, rfl⟩ := h
  rw [← hexpand]
  exact ⟨fun segment' hstor filter p hp =>
      RLEScanState.serves_of_reachable (henc.readable hblk hstor hpos) hp,
    fun segment' hstor row hrow => RLEScanState.fetchRow_eq (henc.readable hblk hstor hpos) hrow⟩

end ReadBack

/-! ## Double-precision values -/

/-- The bits of a `double`. -/
structure Double where
  bits : BitVec 64
  deriving DecidableEq

namespace Double

/-- The numbers that are not numbers. -/
def isNan (x : Double) : Bool := x.bits.extractLsb' 52 11 = BitVec.allOnes 11 ∧ x.bits.extractLsb' 0 52 ≠ 0

/-- `==` of `double`: both zeros are equal, and what is not a number is not equal to anything. -/
instance : BEq Double where
  beq x y := !x.isNan && !y.isNan && (x = y || x.bits <<< 1 = 0 && y.bits <<< 1 = 0)

instance : Storable Double where
  size := 8
  size_pos := Nat.succ_pos 7
  toBytes x := littleEndian 8 x.bits.toNat
  ofBytes b := ⟨BitVec.ofNat 64 (ofLittleEndian b)⟩
  length_toBytes x := length_littleEndian 8 _
  ofBytes_toBytes x := by
    have hlt : x.bits.toNat < 256 ^ 8 := x.bits.isLt
    rw [ofLittleEndian_littleEndian, Nat.mod_eq_of_lt hlt, BitVec.ofNat_toNat, BitVec.setWidth_eq]

/-- The zeros. -/
def zero : Double := ⟨0⟩

/-- The zero that has a sign. -/
def negZero : Double := ⟨1#64 <<< 63⟩

end Double

/-! ## Columns -/

namespace RLECompressState

variable [Storable T] [BEq T] {blockSize : ℕ}

/-- The segments written partition the rows of the column in order, and have their values, as far as the type
    distinguishes them. -/
theorem compress_readsAs (hmax : 0 < maxRLECount T blockSize) (hblock : blockSize < 2 ^ 32)
    (allocate : ℕ → Memory) (nullValue : T) (rowStart : ℕ) (vectors : List (List (Option T))) :
    ∃ chunks : List (List T), List.Forall₂ Same chunks.flatten vectors.flatten ∧
      Consecutive rowStart (compress blockSize allocate nullValue rowStart vectors) ∧
      List.Forall₂ (fun segment values => segment.count = values.length ∧
          segment.segmentSize ≤ blockSize ∧ segment.ReadsAs values)
        (compress blockSize allocate nullValue rowStart vectors) chunks := by
  obtain ⟨chunks, hwr, hsm⟩ := written_compress hmax hblock allocate nullValue rowStart vectors
  refine ⟨chunks, hsm, hwr.consecutive, hwr.values.imp fun segment values h => ?_⟩
  have hsz : segment.segmentSize ≤ blockSize := h.elim fun runs hruns => hruns.1.size_le
  exact ⟨h.count_eq, hsz, h.readsAs hblock⟩

/-- A column in two vectors, with a row that has no value. -/
theorem compress_readsAs_double : ∃ chunks : List (List Double),
    List.Forall₂ Same chunks.flatten [some Double.zero, none, some Double.zero, some Double.negZero] ∧
      Consecutive 7 (compress 16384 (fun _ _ => 0) Double.zero 7
        [[some Double.zero, none], [some Double.zero, some Double.negZero]]) ∧
      List.Forall₂ (fun segment values => segment.count = values.length ∧
          segment.segmentSize ≤ 16384 ∧ segment.ReadsAs values)
        (compress 16384 (fun _ _ => 0) Double.zero 7
          [[some Double.zero, none], [some Double.zero, some Double.negZero]]) chunks :=
  compress_readsAs (by decide) (by decide) (fun _ _ => 0) Double.zero 7
    [[some Double.zero, none], [some Double.zero, some Double.negZero]]

/-- A zero without a sign is returned for one that has a sign, if it is the first one of their run. -/
theorem fetchRow_negZero : ∃ segment,
    compress 16384 (fun _ _ => 0) Double.zero 0 [[some Double.zero, some Double.negZero]] = [segment] ∧
      ∃ result, RLEScanState.fetchRow segment 1 ⟨false, fun _ => Double.negZero⟩ 0 = pure result ∧
        result.value 0 ≠ Double.negZero := by
  refine ⟨_, rfl, _, rfl, ?_⟩
  decide

end RLECompressState

end WfOpt

import WfOpt.Lib.Marks
import WfOpt.Lib.Parts
import WfOpt.Lib.RangeProd
import WfOpt.Window.ConstantAggregator

/-!
# Results of constant aggregates

The partitions start at the marked rows (`ConstantAggregator.partitionStarts_eq`). Sinking a chunk multiplies the
state of each partition by its rows of the chunk (`ConstantAggregator.sink_apply`), and as the states commute, all
threads together aggregate the rows of the group (`ConstantAggregator.Threads.finalized_count`). A thread that
evaluates increasing chunks never has to go back to an earlier partition (`ConstantAggregator.EvaluateInv`).
-/

namespace WfOpt

open List Function

namespace ConstantAggregator

variable {ρ σ τ : Type*} [CommMonoid σ] {T : ConstantAggregator ρ σ τ}

/-! ## Partitions -/

/-- A block is passed up to its end, or the end of the group. -/
theorem locateInBlock_eq {e bits shift start : ℕ} (hst : start = 64 * e + shift) (hbits : shift + bits = 64) :
    T.locateInBlock (T.partitionMask.getValidityEntry e) bits shift start =
      (marks T.partitionMask.rowIsValid start (min (start + bits) T.groupCount),
        max start (min (start + bits) T.groupCount)) := by
  induction bits generalizing shift start with
  | zero =>
    have hle : min start T.groupCount ≤ start := Nat.min_le_left _ _
    rw [locateInBlock, Nat.add_zero, marks_of_le hle, max_eq_left hle]
  | succ bits ih =>
    rw [locateInBlock]
    rcases Nat.lt_or_ge start T.groupCount with hlt | hge
    · have hbit : T.partitionMask.rowIsValid start = (T.partitionMask.getValidityEntry e).getLsbD shift := by
        rw [ValidityMask.rowIsValid, show start / 64 = e by omega, show start % 64 = shift by omega]
      have hnx : start < min (start + (bits + 1)) T.groupCount := lt_min (by omega) hlt
      rw [if_pos hlt, ih (by omega) (by omega), max_eq_right hnx.le, Nat.add_right_comm, Nat.add_assoc,
        max_eq_right hnx]
      refine congrArg (Prod.mk · _) ?_
      rw [← hbit]
      cases hmark : T.partitionMask.rowIsValid start with
      | true => rw [if_pos rfl, marks_cons hnx hmark]
      | false =>
        have hno : marks T.partitionMask.rowIsValid start (start + 1) = [] := by
          refine marks_eq_nil fun i hi hi' => ?_
          rwa [show i = start by omega]
        rw [if_neg Bool.false_ne_true, marks_append (Nat.le_succ start) hnx, hno, nil_append]
    · have hle : min (start + (bits + 1)) T.groupCount ≤ start := (Nat.min_le_right _ _).trans hge
      rw [if_neg (Nat.not_lt.2 hge), marks_of_le hle, max_eq_left hle]

/-- The marks behind a block are those of the rows behind it. -/
theorem marks_behind (start n : ℕ) : marks T.partitionMask.rowIsValid start T.groupCount =
      marks T.partitionMask.rowIsValid start (min (start + n) T.groupCount) ++
        marks T.partitionMask.rowIsValid (start + n) T.groupCount := by
  rcases Nat.le_total (start + n) T.groupCount with hle | hge
  · rw [min_eq_left hle, marks_append (Nat.le_add_right start n) hle]
  · rw [min_eq_right hge, marks_of_le hge, append_nil]

theorem locateInBlocks_eq {fuel start : ℕ} (h : T.groupCount ≤ start + fuel) :
    T.locateInBlocks fuel start = marks T.partitionMask.rowIsValid start T.groupCount := by
  induction fuel generalizing start with
  | zero => exact (marks_of_le h).symm
  | succ fuel ih =>
    rw [locateInBlocks]
    rcases Nat.lt_or_ge start T.groupCount with hlt | hge
    · dsimp only
      split_ifs with hblank
      · have hno : marks T.partitionMask.rowIsValid start (min (start + 64) T.groupCount) = [] := by
          refine marks_eq_nil fun i hi hi' => ?_
          rw [ValidityMask.rowIsValid, show i / 64 = start / 64 by omega, hblank.1]
          exact BitVec.getLsbD_zero
        rw [ih (by omega), marks_behind start 64, hno, nil_append]
      · rw [locateInBlock_eq (Nat.div_add_mod start 64).symm (by omega), marks_behind start (64 - start % 64),
          ih (by omega), max_eq_right (by omega)]
        rcases Nat.le_total (start + (64 - start % 64)) T.groupCount with hle | hge
        · rw [min_eq_left hle]
        · rw [min_eq_right hge, marks_of_le hge, marks_of_le le_rfl]
    · rw [if_neg (Nat.not_lt.2 hge), marks_of_le hge]

theorem partitionStarts_eq (h : 0 < T.groupCount) : T.partitionStarts = marks T.startsPartition 0 T.groupCount := by
  rw [partitionStarts]
  split_ifs with hmask
  · rw [marks_cons h (by simp [startsPartition, hmask]), marks_eq_nil]
    simp [startsPartition, hmask]
    omega
  · rw [locateInBlocks_eq (Nat.le_add_left _ _)]
    refine marks_congr fun i _ _ => ?_
    rw [startsPartition, if_neg hmask]

theorem startsPartition_zero : T.startsPartition 0 = true := by
  rw [startsPartition]
  split_ifs
  · rfl
  · exact T.start_zero

theorem pairwise_partitionStarts : T.partitionStarts.Pairwise (· < ·) := by
  rcases Nat.eq_zero_or_pos T.groupCount with hz | hpos
  · rw [partitionStarts]
    split_ifs
    · exact pairwise_singleton _ _
    · rw [locateInBlocks_eq (Nat.le_add_left _ _), marks_of_le hz.le]
      exact List.Pairwise.nil
  · rw [partitionStarts_eq hpos]
    exact List.Pairwise.filter _ (pairwise_lt_range' _)

theorem mem_partitionStarts (h : 0 < T.groupCount) {s : ℕ} :
    s ∈ T.partitionStarts ↔ s < T.groupCount ∧ T.startsPartition s = true := by
  rw [partitionStarts_eq h, mem_marks]
  exact and_iff_right (Nat.zero_le s)

/-- The partition of a row. -/
def partition (T : ConstantAggregator ρ σ τ) (row : ℕ) : ℕ := partOf T.partitionStarts row

theorem partition_mono {r r' : ℕ} (h : r ≤ r') : T.partition r ≤ T.partition r' := partOf_mono h

variable {row : ℕ}

theorem partition_lt (hrow : row < T.groupCount) : T.partition row < T.partitionStarts.length := by
  have hpos : 0 < T.groupCount := Nat.zero_lt_of_lt hrow
  exact partOf_lt_length (ne_nil_of_mem ((mem_partitionStarts hpos).2 ⟨hpos, startsPartition_zero⟩))

theorem offset_of_lt {p : ℕ} (hp : p < T.partitionStarts.length) : T.offset p = T.partitionStarts[p] := by
  rw [offset, partitionOffsets, getD_append _ _ _ _ hp, getD_eq_getElem _ _ hp]

theorem offset_length : T.offset T.partitionStarts.length = T.groupCount := by
  rw [offset, partitionOffsets, getD_append_right _ _ _ _ le_rfl, Nat.sub_self]
  rfl

theorem offset_le_iff {p row : ℕ} (hp : p ≤ T.partitionStarts.length) (hrow : row < T.groupCount) :
    T.offset p ≤ row ↔ p ≤ T.partition row := by
  have hpos : 0 < T.groupCount := Nat.zero_lt_of_lt hrow
  rcases Nat.lt_or_eq_of_le hp with hlt | rfl
  · rw [offset_of_lt hlt]
    exact getElem_le_iff_partOf pairwise_partitionStarts
      ((mem_partitionStarts hpos).2 ⟨hpos, startsPartition_zero⟩) hlt
  · rw [offset_length]
    exact iff_of_false (Nat.not_le.2 hrow) (Nat.not_le.2 (partition_lt hrow))

theorem offset_partition_le (hrow : row < T.groupCount) : T.offset (T.partition row) ≤ row :=
  (offset_le_iff (partition_lt hrow).le hrow).2 le_rfl

theorem lt_offset_succ (hrow : row < T.groupCount) : row < T.offset (T.partition row + 1) := by
  rw [← Nat.not_le, offset_le_iff (partition_lt hrow) hrow]
  exact Nat.not_succ_le_self _

theorem offset_strictMono {p q : ℕ} (h : p < q) (hq : q < T.partitionStarts.length) : T.offset p < T.offset q := by
  rw [offset_of_lt (h.trans hq), offset_of_lt hq]
  exact pairwise_iff_getElem.1 pairwise_partitionStarts p q (h.trans hq) hq h

theorem offset_mono {p q : ℕ} (h : p ≤ q) (hq : q < T.partitionStarts.length) : T.offset p ≤ T.offset q := by
  rcases Nat.lt_or_eq_of_le h with hlt | rfl
  · exact (offset_strictMono hlt hq).le
  · exact le_rfl

theorem partition_of_offset {p row : ℕ} (hp : p < T.partitionStarts.length) (hoff : T.offset (p + 1) = row)
    (hrow : row < T.groupCount) : T.partition row = p + 1 := by
  refine le_antisymm ?_ ((offset_le_iff hp hrow).1 hoff.le)
  by_contra hlt
  have hstr := offset_strictMono (Nat.lt_of_not_le hlt) (partition_lt hrow)
  rw [hoff] at hstr
  exact absurd (offset_partition_le hrow) (Nat.not_le.2 hstr)

theorem partitionBegin_eq (hrow : row < T.groupCount) : T.partitionBegin row = T.offset (T.partition row) := by
  have hpos : 0 < T.groupCount := Nat.zero_lt_of_lt hrow
  have hbeg : T.partitionBegin row ≤ row := lastStart_le _ _
  have hst : T.startsPartition (T.partitionBegin row) = true := lastStart_spec startsPartition_zero row
  refine le_antisymm ?_ (le_lastStart ?_ (offset_partition_le hrow))
  · obtain ⟨p, hp, heq⟩ := getElem_of_mem
      ((mem_partitionStarts hpos).2 ⟨hbeg.trans_lt hrow, hst⟩)
    rw [← offset_of_lt hp] at heq
    rw [← heq, offset_le_iff hp.le hrow] at hbeg
    rw [← heq]
    exact offset_mono hbeg (partition_lt hrow)
  · rw [offset_of_lt (partition_lt hrow)]
    exact ((mem_partitionStarts hpos).1 (getElem_mem _)).2

theorem partitionBegin_le (row : ℕ) : T.partitionBegin row ≤ row := lastStart_le _ _

theorem partition_partitionBegin (hrow : row < T.groupCount) :
    T.partition (T.partitionBegin row) = T.partition row := by
  have hbeg : T.partitionBegin row ≤ row := lastStart_le _ _
  refine le_antisymm (partition_mono hbeg) ?_
  rw [← offset_le_iff (partition_lt hrow).le (hbeg.trans_lt hrow), partitionBegin_eq hrow]

theorem partition_eq_iff {r r' : ℕ} (hr : r < T.groupCount) (hr' : r' < T.groupCount) :
    T.partition r = T.partition r' ↔ T.partitionBegin r = T.partitionBegin r' := by
  refine ⟨fun h => ?_, fun h => ?_⟩
  · rw [partitionBegin_eq hr, partitionBegin_eq hr', h]
  · rw [← partition_partitionBegin hr, h, partition_partitionBegin hr']

/-- The search in the offsets finds the partition behind that of the row. -/
theorem upperBound_eq (hrow : row < T.groupCount) : T.upperBound row - 1 = T.partition row := by
  have hsort : T.partitionOffsets.Pairwise (· < ·) := by
    rw [partitionOffsets, pairwise_append]
    refine ⟨pairwise_partitionStarts, pairwise_singleton _ _, fun s hs t ht => ?_⟩
    rw [mem_singleton.1 ht]
    exact ((mem_partitionStarts (Nat.zero_lt_of_lt hrow)).1 hs).1
  have hguard : [T.groupCount].countP (fun s => s ≤ row) = 0 := countP_starts_of_lt (by simpa using hrow)
  rw [upperBound, findIdx_starts hsort, partitionOffsets, countP_append, partition, partOf, hguard, Nat.add_zero]

/-! ## Sinking -/

/-- What a row contributes to the state of a partition. -/
def share (T : ConstantAggregator ρ σ τ) (p row : ℕ) : σ :=
  if T.passes row && T.partition row = p then T.aggr.rowState (T.row row) else 1

/-- What holds when the loop comes to a row of a chunk: the states have the rows before. -/
structure SinkInv (T : ConstantAggregator ρ σ τ) (states : ℕ → σ) (chunkBegin size : ℕ) (s : Sinking σ) : Prop where
  row_eq : s.row = chunkBegin + s.begin
  begin_le : s.begin ≤ size
  sel_eq : s.sel = marks (fun i => T.passes (chunkBegin + i)) s.begin size
  states_eq : ∀ p, s.states p = states p * rangeProd (T.share p) chunkBegin s.row
  partition_eq : s.begin < size → if s.row = s.partitionEnd then s.partition + 1 = T.partition s.row
    else s.partition = T.partition s.row ∧ s.partitionEnd = T.offset (s.partition + 1)

variable {states : ℕ → σ} {chunkBegin size : ℕ} {s : Sinking σ}

theorem SinkInv.start (hrow : chunkBegin + size ≤ T.groupCount) (hsz : 0 < size) : T.SinkInv states chunkBegin size
      ⟨chunkBegin, 0, T.upperBound chunkBegin - 1, T.offset (T.upperBound chunkBegin - 1 + 1),
        T.filterSel chunkBegin size, states⟩ := by
  have hlt : chunkBegin < T.groupCount := by omega
  have hend := lt_offset_succ hlt
  rw [upperBound_eq hlt]
  refine ⟨rfl, Nat.zero_le _, ?_, fun p => ?_, fun _ => ?_⟩
  · rw [filterSel, range_eq_range']
    rfl
  · rw [rangeProd_self, mul_one]
  · rw [if_neg hend.ne]
    exact ⟨rfl, rfl⟩

/-- Selected rows are cut where a partition ends. -/
theorem takeWhile_marks {p : ℕ → Bool} {l m r : ℕ} (hl : l ≤ m) (hr : m ≤ r) :
    (marks p l r).takeWhile (fun i => i < m) = marks p l m := by
  have hbef : ∀ i ∈ marks p l m, decide (i < m) = true := by
    intro i hi
    rw [mem_marks] at hi
    exact decide_eq_true hi.2.1
  rw [marks_append hl hr, takeWhile_append_of_pos hbef]
  cases hrst : marks p m r with
  | nil => exact append_nil _
  | cons i rest =>
    have hi : i ∈ marks p m r := hrst ▸ mem_cons_self
    rw [mem_marks] at hi
    rw [takeWhile_cons_of_neg (by simpa using hi.1), append_nil]

theorem dropWhile_marks {p : ℕ → Bool} {l m r : ℕ} (hl : l ≤ m) (hr : m ≤ r) :
    (marks p l r).dropWhile (fun i => i < m) = marks p m r := by
  have hspl := takeWhile_append_dropWhile (p := fun i => decide (i < m)) (l := marks p l r)
  rw [takeWhile_marks hl hr, marks_append hl hr] at hspl
  rw [marks_append hl hr]
  exact append_cancel_left hspl

theorem prod_piece {b e : ℕ} (q : ℕ) (hq : ∀ r, chunkBegin + b ≤ r → r < chunkBegin + e → T.partition r = q) :
    ((marks (fun i => T.passes (chunkBegin + i)) b e).map fun i => T.aggr.rowState (T.row (chunkBegin + i))).prod =
      rangeProd (T.share q) (chunkBegin + b) (chunkBegin + e) := by
  have hsh : rangeProd (T.share q) (chunkBegin + b) (chunkBegin + e) =
      rangeProd (fun i => T.share q (chunkBegin + i)) b e := by
    rw [rangeProd, rangeProd, Nat.add_sub_add_left, ← map_add_range', map_map]
    rfl
  rw [marks, prod_filter_range', hsh]
  refine rangeProd_congr fun i hi hi' => ?_
  rw [share, hq _ (by omega) (by omega)]
  simp

/-- The rows that are aggregated, with and without a filter. -/
theorem rows_eq {b e : ℕ} (sel : List ℕ) (hsel : sel = marks (fun i => T.passes (chunkBegin + i)) b e) :
    (if T.filterMask.isSome then sel else range' b (e - b)) = marks (fun i => T.passes (chunkBegin + i)) b e := by
  cases hmask : T.filterMask with
  | some mask => exact hsel
  | none =>
    rw [← marks_true]
    refine marks_congr fun i _ _ => ?_
    rw [passes, hmask]
    rfl

/-- The piece of a chunk that is aggregated ends with the partition of its first row, or with the chunk. -/
def pieceEnd (T : ConstantAggregator ρ σ τ) (row chunkEnd : ℕ) : ℕ := min (T.offset (T.partition row + 1)) chunkEnd

theorem SinkInv.exists_stop (h : T.SinkInv states chunkBegin size s) (hlt : s.begin < size)
    (hrow : chunkBegin + size ≤ T.groupCount) :
    ∃ stop, T.pieceEnd s.row (chunkBegin + size) = chunkBegin + stop ∧ s.begin < stop ∧ stop ≤ size := by
  have heq := h.row_eq
  have hend : s.row < T.offset (T.partition s.row + 1) := lt_offset_succ (by omega)
  have hlow : s.row < T.pieceEnd s.row (chunkBegin + size) := lt_min hend (by omega)
  have hup : T.pieceEnd s.row (chunkBegin + size) ≤ chunkBegin + size := min_le_right _ _
  exact ⟨T.pieceEnd s.row (chunkBegin + size) - chunkBegin, by omega, by omega, by omega⟩

theorem SinkInv.sinkPartition_eq (h : T.SinkInv states chunkBegin size s) (hlt : s.begin < size) {stop : ℕ}
    (hstp : T.pieceEnd s.row (chunkBegin + size) = chunkBegin + stop) (hbeg : s.begin < stop)
    (hsz : stop ≤ size) :
    T.sinkPartition chunkBegin (chunkBegin + size) s =
      { row := chunkBegin + stop
        begin := stop
        partition := T.partition s.row
        partitionEnd := chunkBegin + stop
        sel := marks (fun i => T.passes (chunkBegin + i)) stop size
        states := T.updateRows chunkBegin s.states (T.partition s.row)
          (marks (fun i => T.passes (chunkBegin + i)) s.begin stop) } := by
  have hpart := h.partition_eq hlt
  have hpartition : (if s.row = s.partitionEnd then s.partition + 1 else s.partition) = T.partition s.row := by
    split_ifs at hpart ⊢
    · exact hpart
    · exact hpart.1
  have hend : (if s.row = s.partitionEnd then T.offset (T.partition s.row + 1) else s.partitionEnd) =
      T.offset (T.partition s.row + 1) := by
    split_ifs at hpart ⊢
    · rfl
    · rw [hpart.2, hpart.1]
  have hnx : s.row + (stop - s.begin) = chunkBegin + stop := by
    rw [h.row_eq]
    omega
  rw [sinkPartition, hpartition, hend, ← pieceEnd, hstp, Nat.add_sub_cancel_left, h.sel_eq,
    dropWhile_marks le_rfl hlt.le, takeWhile_marks hbeg.le hsz, dropWhile_marks hbeg.le hsz, rows_eq _ rfl,
    hnx]

theorem partition_of_mem_piece {row chunkEnd r : ℕ} (hchk : chunkEnd ≤ T.groupCount) (hle : row ≤ r)
    (hlt : r < T.pieceEnd row chunkEnd) : T.partition r = T.partition row := by
  obtain ⟨hoff, hend⟩ := lt_min_iff.1 hlt
  have hr : r < T.groupCount := hend.trans_le hchk
  refine le_antisymm ?_ (partition_mono hle)
  rw [← Nat.lt_succ_iff, ← Nat.not_le, ← offset_le_iff (partition_lt (hle.trans_lt hr)) hr]
  exact Nat.not_le.2 hoff

/-- The loop goes on with the next piece. -/
theorem SinkInv.step (h : T.SinkInv states chunkBegin size s) (hlt : s.begin < size)
    (hrow : chunkBegin + size ≤ T.groupCount) :
    T.SinkInv states chunkBegin size (T.sinkPartition chunkBegin (chunkBegin + size) s) ∧
      s.begin < (T.sinkPartition chunkBegin (chunkBegin + size) s).begin := by
  obtain ⟨stop, hstp, hbeg, hsz⟩ := h.exists_stop hlt hrow
  have hpiece : ∀ r, s.row ≤ r → r < chunkBegin + stop → T.partition r = T.partition s.row := fun r hr hr' =>
    partition_of_mem_piece hrow hr (hstp.symm ▸ hr')
  rw [h.sinkPartition_eq hlt hstp hbeg hsz]
  refine ⟨⟨rfl, hsz, rfl, fun p => ?_, fun hless => ?_⟩, hbeg⟩
  · have hjoin : rangeProd (T.share p) chunkBegin s.row * rangeProd (T.share p) s.row (chunkBegin + stop) =
        rangeProd (T.share p) chunkBegin (chunkBegin + stop) :=
      rangeProd_mul_rangeProd (by rw [h.row_eq]; omega) (by rw [h.row_eq]; omega)
    dsimp only
    rw [updateRows, ← hjoin, ← mul_assoc, ← h.states_eq]
    rcases eq_or_ne p (T.partition s.row) with rfl | hne
    · rw [update_self, prod_piece _ (h.row_eq ▸ hpiece), ← h.row_eq]
    · rw [update_of_ne hne, rangeProd_eq_one, mul_one]
      intro r hr hr'
      rw [share, hpiece r hr hr']
      simp [hne.symm]
  · have hless : stop < size := hless
    have hst : T.offset (T.partition s.row + 1) = chunkBegin + stop := by
      rw [← hstp, pieceEnd, min_eq_left]
      by_contra hgt
      rw [pieceEnd, min_eq_right (Nat.le_of_not_le hgt)] at hstp
      omega
    have hnx : T.partition (chunkBegin + stop) = T.partition s.row + 1 :=
      partition_of_offset (partition_lt (by rw [h.row_eq]; omega)) hst (by omega)
    rw [if_pos rfl, hnx]

/-- Sinking a chunk multiplies each state by what the rows of the chunk contribute to it. -/
theorem sink_apply (states : ℕ → σ) (hrow : chunkBegin + size ≤ T.groupCount) (hsz : 0 < size) (p : ℕ) :
    T.sink states chunkBegin size p = states p * rangeProd (T.share p) chunkBegin (chunkBegin + size) := by
  have hrun : ∀ (fuel : ℕ) (s : Sinking σ), T.SinkInv states chunkBegin size s → size ≤ s.begin + fuel →
      (T.sinkPartitions chunkBegin (chunkBegin + size) fuel s).states p =
        states p * rangeProd (T.share p) chunkBegin (chunkBegin + size) := by
    intro fuel
    induction fuel with
    | zero =>
      intro s hs hle
      have hdone : s.row = chunkBegin + size := by rw [hs.row_eq, le_antisymm hs.begin_le hle]
      rw [sinkPartitions, hs.states_eq, hdone]
    | succ fuel ih =>
      intro s hs hle
      rw [sinkPartitions]
      rcases Nat.lt_or_ge s.begin size with hlt | hge
      · obtain ⟨hnx, hbeg⟩ := hs.step hlt hrow
        rw [if_pos (by rw [hs.row_eq]; omega)]
        exact ih _ hnx (by omega)
      · have hdone : s.row = chunkBegin + size := by rw [hs.row_eq, le_antisymm hs.begin_le hge]
        rw [if_neg (by omega), hs.states_eq, hdone]
  exact hrun size _ (SinkInv.start hrow hsz) (Nat.le_add_left _ _)

/-! ## Finalizing -/

/-- What the rows of a chunk contribute to the state of a partition. -/
def chunkShare (T : ConstantAggregator ρ σ τ) (p c : ℕ) : σ :=
  rangeProd (T.share p) (T.collection.position c) (T.collection.position (c + 1))

theorem sinkChunks_apply {chunks : List ℕ} (h : ∀ c ∈ chunks, c < T.collection.chunks.length) (p : ℕ) :
    T.sinkChunks chunks p = (chunks.map (T.chunkShare p)).prod := by
  have hfold : ∀ states : ℕ → σ, chunks.foldl
      (fun states c => T.sink states (T.collection.position c) (T.collection.chunkSize c)) states p =
        states p * (chunks.map (T.chunkShare p)).prod := by
    induction chunks with
    | nil => exact fun states => (mul_one _).symm
    | cons c chunks ih =>
      intro states
      obtain ⟨hc, hchks⟩ := forall_mem_cons.1 h
      rw [foldl_cons, ih hchks, sink_apply states (ChunkedRows.position_add_chunkSize_le hc)
        (ChunkedRows.chunkSize_pos hc), map_cons, prod_cons, chunkShare, ChunkedRows.position_succ hc,
        mul_assoc]
  rw [sinkChunks, hfold, one_mul]

variable {n : ℕ}

theorem prod_chunkShare (h : n ≤ T.collection.chunks.length) (p : ℕ) :
    ((range n).map (T.chunkShare p)).prod = rangeProd (T.share p) 0 (T.collection.position n) := by
  induction n with
  | zero => exact rangeProd_self.symm
  | succ n ih =>
    rw [range_succ, map_append, prod_append, ih (Nat.le_of_succ_le h), map_singleton, prod_singleton, chunkShare]
    exact rangeProd_mul_rangeProd (Nat.zero_le _) (ChunkedRows.position_mono (Nat.le_succ n))

/-- What all rows contribute to the state of a partition. -/
def total (T : ConstantAggregator ρ σ τ) (p : ℕ) : σ := rangeProd (T.share p) 0 T.groupCount

variable (threads : T.Threads)

/-- The threads have all rows, whichever chunks they have sunk, and in whichever order they finalize. -/
theorem Threads.prod_order (p : ℕ) :
    (threads.order.map fun t => T.sinkChunks (threads.assigned t) p).prod = T.total p := by
  have hasgn : ∀ t, ∀ c ∈ threads.assigned t, c < T.collection.chunks.length := by
    intro t c hc
    rw [← mem_range, ← threads.assigned_perm.mem_iff]
    exact mem_flatMap.2 ⟨t, mem_finRange t, hc⟩
  have hflat : ∀ l : List (Fin threads.count), (l.map fun t => T.sinkChunks (threads.assigned t) p).prod =
        ((l.flatMap threads.assigned).map (T.chunkShare p)).prod := by
    intro l
    induction l with
    | nil => rfl
    | cons t l ih =>
      rw [map_cons, prod_cons, ih, flatMap_cons, map_append, prod_append, sinkChunks_apply (hasgn t)]
  rw [(threads.order_perm.map _).prod_eq, hflat, (threads.assigned_perm.map _).prod_eq,
    prod_chunkShare le_rfl, ChunkedRows.position_length]
  rfl

theorem Threads.length_order : threads.order.length = threads.count := by
  rw [threads.order_perm.length_eq, length_finRange]

/-- The states of the first `n` threads, combined. -/
def Threads.combined (n p : ℕ) : σ := ((threads.order.take n).map fun t => T.sinkChunks (threads.assigned t) p).prod

variable {threads}

theorem Threads.combined_of_le (hn : threads.count ≤ n) : threads.combined n = T.total := by
  funext p
  rw [combined, take_of_length_le (threads.length_order.trans_le hn), threads.prod_order]

section

variable (hn : n < threads.count)

include hn

theorem Threads.lt_length_order : n < threads.order.length := by
  rwa [threads.length_order]

theorem Threads.combined_succ (p : ℕ) : threads.combined (n + 1) p =
    threads.combined n p * T.sinkChunks (threads.assigned (threads.order.get ⟨n, lt_length_order hn⟩)) p := by
  rw [combined, take_succ_eq_append_getElem (lt_length_order hn), map_append, prod_append,
    map_singleton, prod_singleton]
  rfl

theorem Threads.finalized_succ : threads.finalized (n + 1) =
    T.finalize (threads.finalized n)
      (T.sinkChunks (threads.assigned (threads.order.get ⟨n, lt_length_order hn⟩))) := by
  rw [finalized, take_succ_eq_append_getElem (lt_length_order hn), foldl_append]
  rfl

theorem Threads.finalized_of_lt :
    threads.finalized n = ⟨threads.combined n, threads.count - n, none, 0⟩ := by
  induction n with
  | zero => rfl
  | succ n ih =>
    have hlt : n < threads.count := Nat.lt_of_succ_lt hn
    have hlft : threads.count - n - 1 ≠ 0 := by omega
    rw [finalized_succ hlt, ih hlt, finalize]
    rw [if_neg hlft, Nat.sub_sub]
    refine congrArg (fun states => Global.mk states _ _ _) ?_
    funext p
    exact (combined_succ hlt p).symm

end

/-- The last thread finalizes what all rows contribute. -/
theorem Threads.finalized_count :
    threads.finalized threads.count = ⟨T.total, 0, some fun p => T.aggr.finalize (T.total p), 1⟩ := by
  obtain ⟨n, hn⟩ : ∃ n, threads.count = n + 1 := Nat.exists_eq_succ_of_ne_zero threads.count_pos.ne'
  have hlt : n < threads.count := by omega
  have htot : ∀ p, threads.combined n p *
      T.sinkChunks (threads.assigned (threads.order.get ⟨n, lt_length_order hlt⟩)) p = T.total p := by
    intro p
    rw [← combined_succ hlt, combined_of_le hn.le]
  have hlst : threads.count - n - 1 = 0 := by omega
  rw [hn, finalized_succ hlt, finalized_of_lt hlt, finalize]
  rw [if_pos hlst, hlst]
  simp only [htot]

theorem finalize_total (hrow : row < T.groupCount) :
    T.aggr.finalize (T.total (T.partition row)) = T.expected row := by
  rw [expected, total, range_eq_range', ← Nat.sub_zero T.groupCount, prod_filter_range', Nat.sub_zero]
  refine congrArg T.aggr.finalize (rangeProd_congr fun r _ hr => ?_)
  rw [share]
  simp only [partition_eq_iff hr hrow, Bool.and_eq_true]
  simp only [and_comm]

/-! ## Evaluating -/

/-- The results of some rows have been written, or are those of the partition that the thread has come to. -/
structure EvaluateInv (T : ConstantAggregator ρ σ τ) (results : ℕ → τ) (rowIdx i : ℕ) (s : Evaluating τ) : Prop where
  count_eq : s.targetOffset + s.matched = i
  written : ∀ j < s.targetOffset, s.data j = some (results (T.partition (rowIdx + j)))
  selected_eq : ∀ k < s.matched, s.selected k = s.partition
  partition_eq : ∀ k < s.matched, T.partition (rowIdx + (s.targetOffset + k)) = s.partition
  partition_le : ∀ row, rowIdx + i ≤ row → s.partition ≤ T.partition row

variable {results : ℕ → τ} {rowIdx i : ℕ} {e : Evaluating τ}

section

variable (h : T.EvaluateInv results rowIdx i e)

include h

/-- The results that wait are copied behind those that have been written. -/
theorem EvaluateInv.copyResults_eq {j : ℕ} (hj : j < i) :
    copyResults results e.data e.selected e.matched e.targetOffset j = some (results (T.partition (rowIdx + j))) := by
  have hcnt := h.count_eq
  rw [copyResults]
  split_ifs with hcop
  · have hk : j - e.targetOffset < e.matched := by omega
    rw [h.selected_eq _ hk, ← h.partition_eq _ hk, Nat.add_sub_cancel' hcop.1]
  · exact h.written j (by omega)

theorem EvaluateInv.next
    (hlt : ∀ row, rowIdx + i ≤ row → e.partition < T.partition row) :
    T.EvaluateInv results rowIdx i { flush results e with partition := e.partition + 1 } := by
  have hcnt := h.count_eq
  rw [flush]
  split_ifs with hmatd
  · refine ⟨hcnt, h.written, fun k hk => ?_, fun k hk => ?_, hlt⟩
    iterate 2
      · exact absurd hk (by dsimp only; omega)
  · refine ⟨hcnt, fun j hj => h.copyResults_eq ?_, fun k hk => absurd hk (Nat.not_lt_zero k),
      fun k hk => absurd hk (Nat.not_lt_zero k), hlt⟩
    exact hj.trans_eq hcnt

theorem EvaluateInv.findPartition {fuel : ℕ}
    (hrow : rowIdx + i < T.groupCount) (hfuel : T.partition (rowIdx + i) < e.partition + fuel) :
    T.EvaluateInv results rowIdx i (T.findPartition results (T.partitionBegin (rowIdx + i)) fuel e) ∧
      (T.findPartition results (T.partitionBegin (rowIdx + i)) fuel e).partition = T.partition (rowIdx + i) := by
  induction fuel generalizing e with
  | zero => exact absurd (h.partition_le _ le_rfl) (Nat.not_le.2 hfuel)
  | succ fuel ih =>
    have hle : e.partition ≤ T.partition (rowIdx + i) := h.partition_le _ le_rfl
    have hbeg : T.offset (e.partition + 1) ≤ T.partitionBegin (rowIdx + i) ↔
        e.partition + 1 ≤ T.partition (rowIdx + i) := by
      rw [offset_le_iff (hle.trans_lt (partition_lt hrow)) ((partitionBegin_le _).trans_lt hrow),
        partition_partitionBegin hrow]
    rw [ConstantAggregator.findPartition]
    split_ifs with hnx
    · rw [hbeg] at hnx
      have hinv := h.next fun row hrow' => hnx.trans (partition_mono hrow')
      exact ih hinv (by dsimp only; omega)
    · exact ⟨h, by omega⟩

theorem EvaluateInv.evaluateRow (hrow : rowIdx + i < T.groupCount) :
    T.EvaluateInv results rowIdx (i + 1) (T.evaluateRow results e (T.partitionBegin (rowIdx + i))) := by
  have hfuel : T.partition (rowIdx + i) < e.partition + T.partitionOffsets.length := by
    have hlt := partition_lt hrow
    rw [partitionOffsets, length_append]
    omega
  obtain ⟨hinv, hpart⟩ := h.findPartition hrow hfuel
  rw [ConstantAggregator.evaluateRow]
  have hcnt := hinv.count_eq
  refine ⟨?_, hinv.written, fun k hk => ?_, fun k hk => ?_, fun row hrow' => ?_⟩
  · dsimp only
    omega
  · rcases Nat.lt_or_eq_of_le (Nat.le_of_lt_succ hk) with hlt | rfl
    · exact (update_of_ne hlt.ne _ _).trans (hinv.selected_eq k hlt)
    · exact update_self _ _ _
  · rcases Nat.lt_or_eq_of_le (Nat.le_of_lt_succ hk) with hlt | rfl
    · exact hinv.partition_eq k hlt
    · rw [hcnt, hpart]
  · exact hinv.partition_le row (by omega)

end

variable (results) in
/-- A chunk gets the results of the partitions of its rows, and the cursor is not behind the next row. -/
theorem evaluate_results {cursor : Cursor} {frameBegin : ℕ → ℕ} {count : ℕ}
    (hcursor : ∀ row, rowIdx ≤ row → cursor.partition ≤ T.partition row) (hcount : rowIdx + count ≤ T.groupCount)
    (hbegin : ∀ i < count, frameBegin i = T.partitionBegin (rowIdx + i)) :
    (∀ i < count, (T.evaluate results cursor frameBegin count).1.value i =
        some (results (T.partition (rowIdx + i)))) ∧
      ∀ row, rowIdx + count ≤ row → (T.evaluate results cursor frameBegin count).2.partition ≤ T.partition row := by
  have hrun : ∀ n ≤ count, T.EvaluateInv results rowIdx n ((range n).foldl
      (fun s i => T.evaluateRow results s (frameBegin i))
      ⟨cursor.partition, cursor.selected, 0, 0, fun _ => none⟩) := by
    intro n hn
    induction n with
    | zero =>
      exact ⟨rfl, fun j hj => absurd hj (Nat.not_lt_zero j), fun k hk => absurd hk (Nat.not_lt_zero k),
        fun k hk => absurd hk (Nat.not_lt_zero k), hcursor⟩
    | succ n ih =>
      rw [range_succ, foldl_append, foldl_cons, foldl_nil, hbegin n hn]
      exact (ih (Nat.le_of_succ_le hn)).evaluateRow (by omega)
  have hinv := hrun count le_rfl
  rw [evaluate]
  generalize (range count).foldl (fun s i => T.evaluateRow results s (frameBegin i))
    ⟨cursor.partition, cursor.selected, 0, 0, fun _ => none⟩ = e at *
  refine ⟨fun i hi => ?_, hinv.partition_le⟩
  have heq := hinv.count_eq
  dsimp only
  split_ifs with hno hconst
  · exact hinv.written i (by omega)
  · have hi' : i < e.matched := by omega
    have hpart := hinv.partition_eq i hi'
    rw [hconst.1, Nat.zero_add] at hpart
    rw [ResultVector.value, if_pos rfl]
    dsimp only
    rw [copyResults, hconst.1, if_pos ⟨le_rfl, Nat.one_pos⟩, hinv.selected_eq _ (Nat.pos_of_ne_zero hno), hpart]
  · exact hinv.copyResults_eq hi

variable (results) in
theorem evaluateChunks_spec {chunks : List EvaluatedChunk} (cursor : Cursor) (h : T.Evaluable chunks)
    (hcurs : ∀ chunk ∈ chunks, ∀ row, chunk.rowIdx ≤ row → cursor.partition ≤ T.partition row) :
    List.Forall₂ (fun chunk v => ∀ i < chunk.count, v.value i = some (results (T.partition (chunk.rowIdx + i))))
      chunks (T.evaluateChunks results cursor chunks) := by
  induction chunks generalizing cursor with
  | nil => exact List.Forall₂.nil
  | cons chunk chunks ih =>
    obtain ⟨hfst, hrst⟩ := pairwise_cons.1 h.increasing
    obtain ⟨hvals, hnx⟩ := evaluate_results results (hcurs chunk mem_cons_self)
      (h.inGroup chunk mem_cons_self) (h.frameBegin chunk mem_cons_self)
    refine List.Forall₂.cons hvals (ih _ ⟨hrst, fun c hc => ?_, fun c hc => ?_⟩ fun c hc row hrow => ?_)
    · exact h.inGroup c (mem_cons_of_mem _ hc)
    · exact h.frameBegin c (mem_cons_of_mem _ hc)
    · exact hnx row ((hfst c hc).trans hrow)

/-! ## All threads -/

/-- The results are finalized once, and a thread that evaluates increasing chunks gets the aggregate of the partition
    of each row. -/
theorem constant_aggregates (T : ConstantAggregator ρ σ τ) (threads : T.Threads) :
    (∀ n < threads.count, (threads.finalized n).results = none ∧ (threads.finalized n).finalizations = 0) ∧
      (threads.finalized threads.count).finalizations = 1 ∧
      ∃ results, (threads.finalized threads.count).results = some results ∧
        ∀ (selected : ℕ → ℕ) (chunks : List EvaluatedChunk), T.Evaluable chunks →
          List.Forall₂ (fun chunk v => ∀ i < chunk.count, v.value i = some (T.expected (chunk.rowIdx + i)))
            chunks (T.evaluateChunks results ⟨0, selected⟩ chunks) := by
  refine ⟨fun n hn => ?_, ?_, fun p => T.aggr.finalize (T.total p), ?_, fun selected chunks hchks => ?_⟩
  · rw [threads.finalized_of_lt hn]
    exact ⟨rfl, rfl⟩
  · rw [threads.finalized_count]
  · rw [threads.finalized_count]
  · have hspec := evaluateChunks_spec (fun p => T.aggr.finalize (T.total p)) ⟨0, selected⟩
      hchks fun _ _ row _ => Nat.zero_le _
    refine forall₂_iff_zip.2 ⟨hspec.length_eq, fun {chunk v} hmem i hi => ?_⟩
    have hin := hchks.inGroup chunk (of_mem_zip hmem).1
    rw [(forall₂_iff_zip.1 hspec).2 hmem i hi, finalize_total (by omega)]

theorem sumOfFour_pos : ∀ n ∈ [2, 2], 1 ≤ n := by decide

/-- Four rows with the values 1 to 4: the third one does not pass the filter, the last one is a partition of its own. -/
def sumOfFour : ConstantAggregator ℕ (Multiplicative ℕ) ℕ where
  aggr := ⟨Multiplicative.ofAdd, Multiplicative.toAdd, true, fun _ a b => mul_comm a b⟩
  collection := ⟨[2, 2], sumOfFour_pos⟩
  row r := r + 1
  filterMask := some fun r => r ≠ 2
  partitionMask := ⟨some fun _ => 0b1001⟩
  start_zero := by decide

/-- Two threads with a chunk each, of which the second one finalizes first. -/
def sumThreads : sumOfFour.Threads where
  count := 2
  assigned t := [t.val]
  order := [⟨1, Nat.one_lt_two⟩, ⟨0, Nat.two_pos⟩]
  count_pos := Nat.two_pos
  assigned_perm := by decide
  order_perm := by decide

/-- The rows are evaluated in two chunks. -/
def sumChunks : List EvaluatedChunk := [⟨0, 2, fun _ => 0⟩, ⟨2, 2, fun i => 3 * i⟩]

theorem constant_aggregates_sum : sumOfFour.expected 1 = 3 ∧ sumOfFour.expected 3 = 4 ∧
    ∃ results, (sumThreads.finalized 2).results = some results ∧
      List.Forall₂ (fun chunk v => ∀ i < chunk.count, v.value i = some (sumOfFour.expected (chunk.rowIdx + i)))
        sumChunks (sumOfFour.evaluateChunks results ⟨0, fun _ => 0⟩ sumChunks) := by
  obtain ⟨results, hresults, hspec⟩ := (constant_aggregates sumOfFour sumThreads).2.2
  exact ⟨by decide, by decide, results, hresults, hspec _ _ ⟨by decide, by decide, by decide⟩⟩

end ConstantAggregator

end WfOpt

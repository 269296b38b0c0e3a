import WfOpt.Basic
import WfOpt.Lib.Pruning
import WfOpt.Lib.Runs
import WfOpt.Sort.Key

/-!
# Merge pruning

When sorted runs are merged for `rank() <= k`, only the rows with the `k` first order values of each partition are
copied into a merge partition (`templatedMergePartition`), and only those of the merge partition are scanned
(`templatedScanPartition`). Both loops count the distinct order values (`PruneState.prune`). A row that is left out
comes after `k` rows with distinct order values that are not, so neither loop changes a rank up to `k`
(`mergePruning_lossless`).
-/

namespace WfOpt

open List

/-! ## The loops -/

/-- The counters of a pruning loop: the partition and order value of the last row taken, and the number of distinct
    order values. -/
structure PruneState where
  partition : ℕ := 0
  orderBy : ℕ := 0
  orderByCount : ℕ := 0

variable (m : OrderModifiers) (k : ℕ)

/-- The body of both pruning loops: whether the row is taken. At the first row, `begin` is set. -/
def PruneState.prune (begin : Bool) (s : PruneState) (x : Row) : Bool × PruneState :=
  let partitionValue := (x.key m).extractPartition
  let orderValue := (x.key m).extractOrderBy
  if begin ∨ partitionValue ≠ s.partition then
    (true, ⟨partitionValue, orderValue, 1⟩)
  else if orderValue = s.orderBy then
    (true, s)
  else if s.orderByCount < k then
    (true, { s with orderBy := orderValue, orderByCount := s.orderByCount + 1 })
  else
    (false, s)

/-- The loop of `TemplatedMergePartition` over the slice of a run: the rows
    copied, and the number of those skipped. -/
def pruneRun : Bool → PruneState → List Row → List Row × ℕ
  | _, _, [] => ([], 0)
  | begin, s, x :: l =>
    match s.prune m k begin x with
    | (true, s') => ((pruneRun false s' l).map (x :: ·) id)
    | (false, s') => ((pruneRun false s' l).map id (· + 1))

/-- The loop of `TemplatedScanPartition`, with room for `room` rows: the rows taken, the number read, and the
    counters. -/
def scanLoop : Bool → PruneState → ℕ → List Row → List Row × ℕ × PruneState
  | _, s, 0, _ => ([], 0, s)
  | _, s, _ + 1, [] => ([], 0, s)
  | begin, s, room + 1, x :: l =>
    match s.prune m k begin x with
    | (true, s') => ((scanLoop false s' room l).map (x :: ·) (Prod.map (· + 1) id))
    | (false, s') => ((scanLoop false s' (room + 1) l).map id (Prod.map (· + 1) id))

/-- The part of `SortedRunMergerLocalState` that merges and scans a merge
    partition. -/
structure MergerLocalState where
  /-- The rows of `merged_partition`, up to `merged_partition_count`. -/
  merged : List Row
  mergedPartitionIndex : ℕ
  useSkip : Bool
  skippedTuples : ℕ
  counters : PruneState

/-- `TemplatedMergePartition`: the rows of the runs between the run boundaries are copied and re-sorted. -/
def templatedMergePartition (doMergePruning isIndexSort : Bool) (numRuns : ℕ) (run : ℕ → List Row)
    (runBoundaries : ℕ → ℕ × ℕ) : MergerLocalState :=
  let activeRuns := (range numRuns).countP fun r => (runBoundaries r).1 ≠ (runBoundaries r).2
  let copied := fun r =>
    let l := slice (run r) (runBoundaries r).1 (runBoundaries r).2
    if doMergePruning then pruneRun m k true {} l else (l, 0)
  let merged := (range numRuns).flatMap fun r => (copied r).1
  { merged := if activeRuns = 1 ∨ isIndexSort then merged
      else merged.mergeSort fun x y => ¬(y.key m).lt (x.key m)
    mergedPartitionIndex := 0
    useSkip := doMergePruning
    skippedTuples := ((range numRuns).map fun r => (copied r).2).sum
    counters := {} }

/-- `TemplatedScanPartition`: the chunk scanned. -/
def MergerLocalState.templatedScanPartition (s : MergerLocalState) : List Row × MergerLocalState :=
  let rest := s.merged.drop s.mergedPartitionIndex
  if s.useSkip then
    let r := scanLoop m k (s.mergedPartitionIndex = 0) s.counters standardVectorSize rest
    (r.1, { s with mergedPartitionIndex := s.mergedPartitionIndex + r.2.1, counters := r.2.2 })
  else
    let chunk := rest.take standardVectorSize
    (chunk, { s with mergedPartitionIndex := s.mergedPartitionIndex + chunk.length })

/-! ## Successive scans -/

variable {m k}

variable {s : PruneState}

theorem scanLoop_read_pos {begin : Bool} {room : ℕ} {l : List Row} (h : (scanLoop m k begin s room l).1 ≠ []) :
    0 < (scanLoop m k begin s room l).2.1 ∧ 0 < l.length := by
  match room, l with
  | 0, _ => simp [scanLoop] at h
  | room + 1, x :: l =>
    rw [scanLoop]
    rcases s.prune m k begin x with ⟨_ | _, s'⟩ <;> simp

theorem MergerLocalState.scan_decreases {s : MergerLocalState} (h : (s.templatedScanPartition m k).1 ≠ []) :
    (s.templatedScanPartition m k).2.merged.length -
        (s.templatedScanPartition m k).2.mergedPartitionIndex <
      s.merged.length - s.mergedPartitionIndex := by
  unfold templatedScanPartition at h ⊢
  split_ifs at h ⊢ with hskip
  · have := scanLoop_read_pos h
    rw [length_drop] at this
    dsimp only
    omega
  · have := length_pos_iff.2 h
    have := length_take_le' standardVectorSize (s.merged.drop s.mergedPartitionIndex)
    rw [length_drop] at this
    dsimp only at *
    omega

variable (m k) in
/-- The chunks of successive scans, up to the first empty one, at which
    `ExecuteTask` finishes the merge partition. -/
def MergerLocalState.scanAll (s : MergerLocalState) : List Row :=
  if _h : (s.templatedScanPartition m k).1 = [] then []
  else (s.templatedScanPartition m k).1 ++ scanAll (s.templatedScanPartition m k).2
termination_by s.merged.length - s.mergedPartitionIndex
decreasing_by exact scan_decreases _h

/-- A scan takes up the pruning where the previous one left it. -/
theorem scanLoop_append (begin : Bool) (s : PruneState) (room : ℕ) (l : List Row) :
    let r := scanLoop m k begin s room l
    r.1 ++ (pruneRun m k (begin ∧ r.2.1 = 0) r.2.2 (l.drop r.2.1)).1 = (pruneRun m k begin s l).1 := by
  induction l generalizing begin s room with
  | nil => cases room <;> simp [scanLoop]
  | cons x l ih =>
    cases room with
    | zero => simp [scanLoop]
    | succ room =>
      rw [scanLoop, pruneRun]
      rcases s.prune m k begin x with ⟨_ | _, s'⟩
      · simpa using ih false s' (room + 1)
      · simpa using ih false s' room

/-- Only at the end of the rows does a scan take none. -/
theorem scanLoop_eq_nil {begin : Bool} {room : ℕ} {l : List Row} (hroom : 0 < room)
    (h : (scanLoop m k begin s room l).1 = []) : (pruneRun m k begin s l).1 = [] := by
  induction l generalizing begin s with
  | nil => rfl
  | cons x l ih =>
    obtain ⟨room, rfl⟩ : ∃ n, room = n + 1 := ⟨room - 1, by omega⟩
    rw [scanLoop] at h
    rw [pruneRun]
    rcases hprune : s.prune m k begin x with ⟨_ | _, s'⟩ <;> rw [hprune] at h
    · exact ih (by simpa using h)
    · simp at h

/-- The chunks of successive scans are those of one pruning loop over the merge
    partition. -/
theorem MergerLocalState.scanAll_eq {s : MergerLocalState} (hskip : s.useSkip = true) :
    s.scanAll m k = (pruneRun m k (s.mergedPartitionIndex = 0) s.counters
      (s.merged.drop s.mergedPartitionIndex)).1 := by
  fun_induction MergerLocalState.scanAll m k s with
  | case1 s h =>
    simp only [templatedScanPartition, hskip] at h
    exact (scanLoop_eq_nil (by decide) h).symm
  | case2 s h ih =>
    have happ := scanLoop_append (m := m) (k := k) (decide (s.mergedPartitionIndex = 0)) s.counters
      standardVectorSize (s.merged.drop s.mergedPartitionIndex)
    simp only [templatedScanPartition, hskip, if_true] at ih ⊢
    rw [ih trivial, ← happ, drop_drop]
    simp [Nat.add_eq_zero_iff]

/-! ## What is pruned -/

/-- The row `x` comes before `y` in what merge pruning takes for its partition. -/
def keyBefore (m : OrderModifiers) (x y : Row) : Prop := (x.key m).extractPartition = (y.key m).extractPartition ∧
    (x.key m).extractOrderBy < (y.key m).extractOrderBy

instance : DecidableRel (keyBefore m) := fun x y =>
  inferInstanceAs (Decidable ((x.key m).extractPartition = (y.key m).extractPartition ∧
    (x.key m).extractOrderBy < (y.key m).extractOrderBy))

theorem before_of_keyBefore {x y : Row} (h : keyBefore m x y) : Row.before m x y :=
  ⟨Row.partition_eq_of_extract h.1, Row.orderLt_of_extract h.1 h.2⟩

/-- The rows are in the order of their keys. -/
def KeySorted (m : OrderModifiers) (l : List Row) : Prop := l.Pairwise fun x y => ¬(y.key m).lt (x.key m)

/-- In the order of the keys, the order values of a partition do not decrease. -/
theorem extractOrderBy_le {x y : Row} (h : ¬(y.key m).lt (x.key m))
    (hp : (x.key m).extractPartition = (y.key m).extractPartition) :
    (x.key m).extractOrderBy ≤ (y.key m).extractOrderBy := by
  rw [Row.key_lt_key_iff] at h
  rw [Row.extractPartition_key, Row.extractPartition_key] at hp
  rw [Row.extractOrderBy_key, Row.extractOrderBy_key]
  omega

/-- The counters are right for the rows `taken` and the rows `l` left: a row beyond the last order value comes after
    as many rows taken as there were distinct order values. -/
structure PruneState.Counts (s : PruneState) (m : OrderModifiers) (taken l : List Row) : Prop where
  le : ∀ z ∈ l, (z.key m).extractPartition = s.partition → s.orderBy ≤ (z.key m).extractOrderBy
  count : ∀ z, (z.key m).extractPartition = s.partition → s.orderBy < (z.key m).extractOrderBy →
    s.orderByCount ≤ taken.countP fun y => keyBefore m y z

/-- A turn of a pruning loop takes the row, and the counters stay right, or skips one that comes after `k` of those
    taken. -/
theorem PruneState.prune_cases {begin : Bool} {x : Row} {taken l : List Row}
    (hl : KeySorted m (x :: l)) (h : begin = false → s.Counts m taken (x :: l)) :
    (∃ s', s.prune m k begin x = (true, s') ∧ s'.Counts m (taken ++ [x]) l) ∨
      (s.prune m k begin x = (false, s) ∧ s.Counts m taken l ∧ k ≤ taken.countP fun y => keyBefore m y x) := by
  have hle : ∀ z ∈ l, (x.key m).extractPartition = (z.key m).extractPartition →
      (x.key m).extractOrderBy ≤ (z.key m).extractOrderBy := fun z hz hp =>
    extractOrderBy_le (rel_of_pairwise_cons hl hz) hp
  -- The row just taken comes before the later ones with a larger order value.
  have hlst : ∀ z, (z.key m).extractPartition = (x.key m).extractPartition →
      (x.key m).extractOrderBy < (z.key m).extractOrderBy →
      (taken ++ [x]).countP (fun y => keyBefore m y z) =
        taken.countP (fun y => keyBefore m y z) + 1 := fun z hp ho => by
    rw [countP_append, countP_singleton, if_pos (decide_eq_true ⟨hp.symm, ho⟩)]
  unfold prune
  by_cases hnew : begin ∨ (x.key m).extractPartition ≠ s.partition
  · refine .inl ⟨_, if_pos hnew, fun z hz hp => hle z hz hp.symm, fun z hp ho => ?_⟩
    rw [hlst z hp ho]
    exact Nat.le_add_left 1 _
  obtain ⟨hbeg, hpart⟩ := not_or.1 hnew
  have hc := h (by simpa using hbeg)
  rw [not_not] at hpart
  rw [if_neg hnew]
  by_cases hsm : (x.key m).extractOrderBy = s.orderBy
  · refine .inl ⟨s, if_pos hsm, fun z hz => hc.le z (mem_cons_of_mem x hz),
      fun z hp ho => (hc.count z hp ho).trans ?_⟩
    rw [countP_append]
    exact Nat.le_add_right _ _
  have hlt : s.orderBy < (x.key m).extractOrderBy := lt_of_le_of_ne (hc.le x mem_cons_self hpart) (Ne.symm hsm)
  rw [if_neg hsm]
  by_cases hcnt : s.orderByCount < k
  · refine .inl ⟨_, if_pos hcnt, fun z hz hp => hle z hz (hpart.trans hp.symm), fun z hp ho => ?_⟩
    rw [hlst z (hp.trans hpart.symm) ho]
    exact Nat.succ_le_succ (hc.count z hp (hlt.trans ho))
  · refine .inr ⟨if_neg hcnt, ⟨fun z hz => hc.le z (mem_cons_of_mem x hz), hc.count⟩, ?_⟩
    exact (not_lt.1 hcnt).trans (hc.count x hpart hlt)

/-- The rows skipped by a pruning loop come after `k` of those taken. -/
theorem exists_dropped {begin : Bool} {taken l : List Row} (hl : KeySorted m l)
    (h : begin = false → s.Counts m taken l) :
    ∃ dropped, l.Perm ((pruneRun m k begin s l).1 ++ dropped) ∧
      ∀ z ∈ dropped, k ≤ (taken ++ (pruneRun m k begin s l).1).countP fun y => keyBefore m y z := by
  induction l generalizing begin s taken with
  | nil => exact ⟨[], .refl _, fun z hz => absurd hz not_mem_nil⟩
  | cons x l ih =>
    rw [pruneRun]
    rcases PruneState.prune_cases (k := k) hl h with ⟨s', heq, hc⟩ | ⟨heq, hc, hk⟩
    · obtain ⟨d, hperm, hd⟩ := ih hl.of_cons fun _ : false = false => hc
      rw [heq]
      refine ⟨d, hperm.cons x, fun z hz => ?_⟩
      have := hd z hz
      rwa [append_assoc] at this
    · obtain ⟨d, hperm, hd⟩ := ih hl.of_cons fun _ : false = false => hc
      rw [heq]
      refine ⟨x :: d, (hperm.cons x).trans perm_middle.symm, fun z hz => ?_⟩
      rcases mem_cons.1 hz with rfl | hz
      · rw [countP_append]
        exact hk.trans (Nat.le_add_right _ _)
      · exact hd z hz

/-- A pruning loop over sorted rows prunes them below the rank `k`. -/
theorem prunes_pruneRun {l : List Row} (hl : KeySorted m l) :
    Prunes (Row.before m) k l (pruneRun m k true s l).1 := by
  have h₀ : true = false → s.Counts m [] l := fun h => absurd h (by decide)
  have h : Prunes (keyBefore m) k l (pruneRun m k true s l).1 := exists_dropped hl h₀
  exact h.mono fun _ _ => before_of_keyBefore

theorem pruneRun_sublist (begin : Bool) (s : PruneState) (l : List Row) : (pruneRun m k begin s l).1.Sublist l := by
  induction l generalizing begin s with
  | nil => exact .refl _
  | cons x l ih =>
    rw [pruneRun]
    rcases s.prune m k begin x with ⟨_ | _, s'⟩
    · exact (ih false s').cons x
    · exact (ih false s').cons_cons x

/-! ## Merge partitions -/

/-- The runs of a window sort, sorted by their keys. -/
abbrev KeyRuns (m : OrderModifiers) := SortedRuns Row fun x y => (x.key m).lt (y.key m)

theorem keySorted_mergeSort (l : List Row) : KeySorted m (l.mergeSort fun x y => ¬(y.key m).lt (x.key m)) := by
  refine (pairwise_mergeSort ?_ ?_ l).imp fun h => by simpa using h
  · simp only [Row.key_lt_key_iff, decide_eq_true_eq] at *
    omega
  · simp only [Row.key_lt_key_iff, Bool.or_eq_true, decide_eq_true_eq]
    omega

/-- With a single list among them that is not empty, the concatenation of sorted
    lists is sorted. -/
theorem keySorted_flatMap {ι : Type*} {p : ι → Prop} [DecidablePred p] {f : ι → List Row} {l : List ι}
    (hcnt : l.countP p ≤ 1) (hnil : ∀ i ∈ l, ¬p i → f i = []) (hf : ∀ i ∈ l, KeySorted m (f i)) :
    KeySorted m (l.flatMap f) := by
  induction l with
  | nil => exact .nil
  | cons i l ih =>
    rw [flatMap_cons]
    by_cases hp : p i
    · have hz : l.countP p = 0 := by
        rw [countP_cons_of_pos (by simpa using hp)] at hcnt
        omega
      have hrst : l.flatMap f = [] := flatMap_eq_nil_iff.2 fun j hj =>
        hnil j (mem_cons_of_mem i hj) fun h =>
          countP_eq_zero.1 hz j hj (decide_eq_true h)
      rw [hrst, append_nil]
      exact hf i mem_cons_self
    · rw [hnil i mem_cons_self hp, nil_append]
      rw [countP_cons_of_neg (by simpa using hp)] at hcnt
      exact ih hcnt (fun j hj => hnil j (mem_cons_of_mem i hj))
        fun j hj => hf j (mem_cons_of_mem i hj)

variable {s : KeyRuns m} (d : s.Division)

variable (m k) in
/-- The rows left of a merge partition by the pruning of the merge and that of the successive scans. -/
def keptOf (p : ℕ) : List Row := (templatedMergePartition m k true false s.numRuns s.run
    fun r => (d.cut p r, d.cut (p + 1) r)).scanAll m k

/-- A merge partition is pruned below the rank `k`. -/
theorem prunes_keptOf (p : ℕ) :
    Prunes (Row.before m) k ((range s.numRuns).flatMap (d.runSlice p)) (keptOf m k d p) := by
  have hsort : ∀ r ∈ range s.numRuns, KeySorted m (d.runSlice p r) := fun r hr =>
    (s.sorted r (mem_range.1 hr)).sublist (slice_sublist _ _ _)
  -- The copied rows, and the merge partition they are sorted into.
  obtain ⟨copied, hcop⟩ : ∃ copied, copied = (range s.numRuns).flatMap fun r =>
      (pruneRun m k true {} (d.runSlice p r)).1 := ⟨_, rfl⟩
  obtain ⟨merged, hmrg⟩ : ∃ merged, merged = (templatedMergePartition m k true false s.numRuns
      s.run fun r => (d.cut p r, d.cut (p + 1) r)).merged := ⟨_, rfl⟩
  have hperm : copied.Perm merged ∧ KeySorted m merged := by
    rw [hmrg]
    simp only [templatedMergePartition, if_true, Bool.false_eq_true, or_false]
    split
    next hact =>
      refine ⟨.of_eq hcop, keySorted_flatMap hact.le (fun r _ h => ?_) fun r hr =>
        (hsort r hr).sublist (pruneRun_sublist _ _ _)⟩
      rw [not_not] at h
      rw [slice, h, Nat.sub_self, take_zero, pruneRun]
    next =>
      rw [hcop]
      exact ⟨(mergeSort_perm _ _).symm, keySorted_mergeSort _⟩
  have hfst : Prunes (Row.before m) k ((range s.numRuns).flatMap (d.runSlice p)) copied := by
    rw [hcop]
    exact .flatMap fun r hr => prunes_pruneRun (hsort r hr)
  have hsnd : Prunes (Row.before m) k merged (keptOf m k d p) := by
    rw [keptOf, MergerLocalState.scanAll_eq rfl, hmrg]
    exact prunes_pruneRun (hmrg ▸ hperm.2)
  exact (hfst.congr (.refl _) hperm.1).trans hsnd

variable (m k) in
/-- The rows left of all merge partitions. -/
def kept : List Row := (range d.parts).flatMap (keptOf m k d)

/-- Merge pruning loses nothing up to the rank `k`, however the runs are divided: a row has a rank of at most `k`
    among all rows if and only if it is kept and has one among the rows kept, and its ranks are the same. -/
theorem mergePruning_lossless (m : OrderModifiers) (k : ℕ) (s : KeyRuns m) (d : s.Division) :
    RankLossless (Row.before m) k s.all (kept m k d) := by
  have h : Prunes (Row.before m) k
      ((range d.parts).flatMap fun p => (range s.numRuns).flatMap (d.runSlice p))
      (kept m k d) := .flatMap fun p _ => prunes_keptOf d p
  exact (h.congr d.perm.symm (.refl _)).lossless

end WfOpt

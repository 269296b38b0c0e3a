import WfOpt.Window.DistinctLinks
import WfOpt.Window.MergeSortTreeAggregate

/-!
# Token trees

A token tree (`WindowTokenTree`) ranks the rows of frames by an ordering of its own: it numbers the keys of the rows
in increasing order, without gaps, and has a merge sort tree over these *tokens* (`tokenAt_lt_iff`). To find them,
every row is compared with the one before in the order of the keys. From the tree come rank and end of the peers of
a row (`rank_eq`, `peerEnd_eq`).
-/

namespace WfOpt

open List

/-- The `ORDER BY` values of the rows, of `keyCount` columns, and whether equal rows are told apart by their
    positions. -/
structure TokenTree (V : Type*) where
  count : ℕ
  keys : ℕ → List V
  keyCount : ℕ
  length_keys : ∀ row, (keys row).length = keyCount
  unique : Bool

namespace TokenTree

variable {V : Type*} (T : TokenTree V)

/-! ## Model -/

/-- `key_cols`: the `ORDER BY` values, and the index of the row if the rows are to be unique. -/
def keyCols : ℕ := T.keyCount + if T.unique then 1 else 0

/-- The value of a row in a column. The index is the last one. -/
def column (row c : ℕ) : Option V ⊕ ℕ := if c < T.keyCount then .inl (T.keys row)[c]? else .inr row

/-- What the rows are sorted by. -/
def sortKey (row : ℕ) : List V ×ₗ ℕ := toLex (T.keys row, if T.unique then row else 0)

/-- The index column of the rows after the sort, which is not stable. -/
structure Sorts [LinearOrder V] (rows : List ℕ) : Prop where
  perm : rows.Perm (List.range T.count)
  sorted : rows.Pairwise fun i j => T.sortKey i ≤ T.sortKey j

/-- The collection of the sorted rows, cut into chunks. -/
def sorted (rows : List ℕ) (chunks : ChunkedRows) : MaskedRows (Option V ⊕ ℕ) where
  toChunkedRows := chunks
  value q c := T.column (rows.getD q 0) c
  partitionCount := T.keyCols
  orderColumns := []
  partitionCount_le _ ho := absurd ho List.not_mem_nil
  sort := true

/-- The deltas written for a call of the delta scan, with the rows they are for. -/
def deltaCall [DecidableEq V] (rows : List ℕ) (chunks : ChunkedRows) (call : DeltaCall) : List (ℕ × ℕ) :=
  let r := distinctFrom ((T.sorted rows chunks).callDiffers call) (List.range T.keyCols)
    (List.range call.count)
  let matching := if r.1 = [] then List.range call.count else r.2
  let nmatch := min call.prev.length call.curr.length - r.1.length
  (matching.take nmatch).map (fun scanIdx => (scanIdx + call.rowIdx, 0)) ++
    r.1.map (fun scanIdx => (scanIdx + call.rowIdx, 1))

/-- `BuildLeaves`: the deltas written by a task. -/
def buildLeaves [DecidableEq V] (rows : List ℕ) (chunks : ChunkedRows) (totalTasks task : ℕ) : List (ℕ × ℕ) :=
  let first := DistinctAggregator.blockBegin chunks totalTasks task
  let last := DistinctAggregator.blockBegin chunks totalTasks (task + 1)
  (if first = 0 then [(0, 0)] else []) ++
    ((T.sorted rows chunks).windowDeltaScanner first last).flatMap (T.deltaCall rows chunks)

/-- `deltas`, after the tasks have written them. -/
def applyDeltas (writes : List (ℕ × ℕ)) : ℕ → ℕ :=
  writes.foldl (fun deltas w => Function.update deltas w.1 w.2) fun _ => 0

/-- A step of `BuildTokens`: the token is increased by the next delta, and is that of the next
    row. -/
def nextToken (rows : List ℕ) (deltas : ℕ → ℕ) (s : ℕ × (ℕ → ℕ)) (q : ℕ) : ℕ × (ℕ → ℕ) := let token := s.1 + deltas q
  (token, Function.update s.2 (rows.getD q 0) token)

/-- `BuildTokens`. -/
def buildTokens (rows : List ℕ) (deltas : ℕ → ℕ) : ℕ → ℕ :=
  ((List.range rows.length).foldl (nextToken rows deltas) (0, fun _ => 0)).2

/-- The merge sort tree over the tokens. -/
def build (rows : List ℕ) (writes : List (ℕ × ℕ)) : MergeSortTree ℕ :=
  .build ((List.range T.count).map (buildTokens rows (applyDeltas writes)))

/-- `Rank` (`TokenRank`). -/
def rank (tree : MergeSortTree ℕ) (lower upper row : ℕ) : ℕ :=
  (tree.aggregateLowerBound (tree.elements 0 row) lower upper).foldl
    (fun rank c => rank + (c.runPos - c.runBegin)) 1

/-- `PeerEnd` (`NextPeer`). Tokens have no gaps, so the next peer is found by adding one. -/
def peerEnd (tree : MergeSortTree ℕ) (lower upper row : ℕ) : ℕ :=
  (tree.aggregateLowerBound (tree.elements 0 row + 1) lower upper).foldl
    (fun idx c => idx + (c.runPos - c.runBegin)) lower

/-! ## Deltas -/

variable {T}

/-- Rows differ in a column if they are not sorted by the same key. -/
theorem exists_column_ne_iff {i j : ℕ} :
    (∃ c < T.keyCols, T.column i c ≠ T.column j c) ↔ T.sortKey i ≠ T.sortKey j := by
  have hkeys : T.keys i = T.keys j ↔ ∀ c < T.keyCount, (T.keys i)[c]? = (T.keys j)[c]? := by
    refine ⟨fun h c _ => by rw [h], fun h => ext_getElem? fun c => ?_⟩
    rcases Nat.lt_or_ge c T.keyCount with hc | hc
    · exact h c hc
    · rw [List.getElem?_eq_none (by rwa [T.length_keys]), List.getElem?_eq_none (by rwa [T.length_keys])]
  rw [← not_iff_not]
  push Not
  rw [sortKey, sortKey, toLex_inj, Prod.mk.injEq, hkeys]
  constructor
  · intro h
    refine ⟨fun c hc => ?_, ?_⟩
    · have := h c (by rw [keyCols]; omega)
      rw [column, column, if_pos hc, if_pos hc] at this
      exact Sum.inl.inj this
    · split_ifs with huniq
      · have := h T.keyCount (by rw [keyCols, if_pos huniq]; omega)
        rw [column, column, if_neg (lt_irrefl _), if_neg (lt_irrefl _)] at this
        exact Sum.inr.inj this
      · rfl
  · rintro ⟨h₁, h₂⟩ c hc
    rw [column, column]
    split_ifs with hlt
    · rw [h₁ c hlt]
    · rw [keyCols] at hc
      split_ifs at hc h₂
      · rw [h₂]
      · omega

variable {rows : List ℕ} {chunks : ChunkedRows}

/-- The delta of the row at the position `q` of the sorted rows. -/
def deltaAt [DecidableEq V] (T : TokenTree V) (rows : List ℕ) (q : ℕ) : ℕ :=
  if 1 ≤ q ∧ T.sortKey (rows.getD q 0) ≠ T.sortKey (rows.getD (q - 1) 0) then 1 else 0

variable [DecidableEq V]

omit [DecidableEq V] in
theorem differsFromPrevious_iff {q : ℕ} :
    (T.sorted rows chunks).DiffersFromPrevious (T.sorted rows chunks).partitionCount q ↔
      T.sortKey (rows.getD q 0) ≠ T.sortKey (rows.getD (q - 1) 0) :=
  exists_column_ne_iff

theorem deltaAt_of_ne {q : ℕ} (hq : 1 ≤ q)
    (h : T.sortKey (rows.getD q 0) ≠ T.sortKey (rows.getD (q - 1) 0)) : T.deltaAt rows q = 1 :=
  if_pos ⟨hq, h⟩

theorem deltaAt_of_eq {q : ℕ} (h : T.sortKey (rows.getD q 0) = T.sortKey (rows.getD (q - 1) 0)) :
    T.deltaAt rows q = 0 :=
  if_neg fun h' => h'.2 h

theorem mem_deltaCall {call : DeltaCall} (hcall : call.Adjacent)
    (hpos : ∀ q, call.rowIdx ≤ q → q < call.rowIdx + call.count → 1 ≤ q) {w : ℕ × ℕ} :
    w ∈ T.deltaCall rows chunks call ↔
      ∃ q, call.rowIdx ≤ q ∧ q < call.rowIdx + call.count ∧ w = (q, T.deltaAt rows q) := by
  have hfst := fun i => MaskedRows.mem_partition_iff (g := T.sorted rows chunks) hcall (i := i)
  have hsnd := fun i => MaskedRows.mem_matching_iff (g := T.sorted rows chunks) hcall rfl (i := i)
  simp only [differsFromPrevious_iff] at hfst hsnd
  rw [deltaCall]
  simp only [mem_append, mem_map]
  constructor
  · rintro (⟨i, hi, rfl⟩ | ⟨i, hi, rfl⟩)
    · obtain ⟨hi, heq⟩ := (hsnd i).1 hi
      refine ⟨call.rowIdx + i, Nat.le_add_right _ _, by omega, ?_⟩
      rw [deltaAt_of_eq (not_not.1 heq), Nat.add_comm]
    · obtain ⟨hi, hne⟩ := (hfst i).1 hi
      refine ⟨call.rowIdx + i, Nat.le_add_right _ _, by omega, ?_⟩
      rw [deltaAt_of_ne (hpos _ (Nat.le_add_right _ _) (by omega)) hne, Nat.add_comm]
  · rintro ⟨q, h₁, h₂, rfl⟩
    obtain ⟨i, rfl⟩ := Nat.exists_eq_add_of_le h₁
    by_cases heq : T.sortKey (rows.getD (call.rowIdx + i) 0) = T.sortKey (rows.getD (call.rowIdx + i - 1) 0)
    · refine .inl ⟨i, (hsnd i).2 ⟨by omega, not_not.2 heq⟩, ?_⟩
      rw [deltaAt_of_eq heq, Nat.add_comm]
    · refine .inr ⟨i, (hfst i).2 ⟨by omega, heq⟩, ?_⟩
      rw [deltaAt_of_ne (hpos _ h₁ h₂) heq, Nat.add_comm]

/-- The deltas written for a block are those of its rows. -/
theorem mem_deltaCalls {b e : ℕ} (hbe : b ≤ e) (he : e ≤ chunks.chunks.length) {w : ℕ × ℕ} :
    w ∈ ((T.sorted rows chunks).windowDeltaScanner b e).flatMap (T.deltaCall rows chunks) ↔
      ∃ q, 1 ≤ q ∧ chunks.position b ≤ q ∧ q < chunks.position e ∧ w = (q, T.deltaAt rows q) := by
  rcases hbe.eq_or_lt with rfl | hlt
  · rw [MaskedRows.windowDeltaScanner_self, flatMap_nil]
    refine iff_of_false not_mem_nil ?_
    omega
  · obtain ⟨hadjacent, hcompares⟩ := MaskedRows.windowDeltaScanner_spec (g := T.sorted rows chunks) hlt he
    have hst : ∀ call ∈ (T.sorted rows chunks).windowDeltaScanner b e, ∀ q,
        call.rowIdx ≤ q → q < call.rowIdx + call.count →
        1 ≤ q ∧ chunks.position b ≤ q ∧ q < chunks.position e :=
      fun call hcall q h₁ h₂ => (hcompares q).1 ⟨call, hcall, h₁, h₂⟩
    have hmem : ∀ call ∈ (T.sorted rows chunks).windowDeltaScanner b e, w ∈ T.deltaCall rows chunks
        call ↔ ∃ q, call.rowIdx ≤ q ∧ q < call.rowIdx + call.count ∧ w = (q, T.deltaAt rows q) :=
      fun call hcall => mem_deltaCall (hadjacent call hcall)
        fun q h₁ h₂ => (hst call hcall q h₁ h₂).1
    rw [mem_flatMap]
    constructor
    · rintro ⟨call, hcall, hw⟩
      obtain ⟨q, h₁, h₂, rfl⟩ := (hmem call hcall).1 hw
      obtain ⟨h₃, h₄, h₅⟩ := hst call hcall q h₁ h₂
      exact ⟨q, h₃, h₄, h₅, rfl⟩
    · rintro ⟨q, h₁, h₂, h₃, rfl⟩
      obtain ⟨call, hcall, h₄, h₅⟩ := (hcompares q).2 ⟨h₁, h₂, h₃⟩
      exact ⟨call, hcall, (hmem call hcall).2 ⟨q, h₄, h₅, rfl⟩⟩

theorem deltaAt_zero : T.deltaAt rows 0 = 0 := if_neg fun h => absurd h.1 (by decide)

theorem mem_buildLeaves {totalTasks : ℕ} (htot : 0 < totalTasks) {w : ℕ × ℕ} :
    w ∈ (List.range totalTasks).flatMap (T.buildLeaves rows chunks totalTasks) ↔
      w = (0, 0) ∨ ∃ q < chunks.count, w = (q, T.deltaAt rows q) := by
  have hend : DistinctAggregator.blockBegin chunks totalTasks totalTasks = chunks.chunks.length :=
    Nat.mul_div_cancel_left _ htot
  have hblk : ∀ task < totalTasks, w ∈ T.buildLeaves rows chunks totalTasks task ↔
      (w = (0, 0) ∧ DistinctAggregator.blockBegin chunks totalTasks task = 0) ∨
        ∃ q, 1 ≤ q ∧ chunks.position (DistinctAggregator.blockBegin chunks totalTasks task) ≤ q ∧
          q < chunks.position (DistinctAggregator.blockBegin chunks totalTasks (task + 1)) ∧
          w = (q, T.deltaAt rows q) := by
    intro task htsk
    rw [buildLeaves, mem_append, mem_deltaCalls (DistinctAggregator.blockBegin_mono chunks totalTasks task)
      (DistinctAggregator.blockBegin_le chunks htsk)]
    split_ifs with hfst
    · simp [hfst]
    · simp [hfst]
  rw [mem_flatMap]
  constructor
  · rintro ⟨task, htsk, hw⟩
    rw [mem_range] at htsk
    rcases (hblk task htsk).1 hw with ⟨rfl, -⟩ | ⟨q, -, -, hq, rfl⟩
    · exact .inl rfl
    · refine .inr ⟨q, ?_, rfl⟩
      rw [← ChunkedRows.position_length]
      exact hq.trans_le (ChunkedRows.position_mono (DistinctAggregator.blockBegin_le chunks htsk))
  · have hz : DistinctAggregator.blockBegin chunks totalTasks 0 = 0 := by
      rw [DistinctAggregator.blockBegin, Nat.zero_mul, Nat.zero_div]
    rintro (rfl | ⟨q, hq, rfl⟩)
    · exact ⟨0, mem_range.2 htot, (hblk 0 htot).2 (.inl ⟨rfl, hz⟩)⟩
    rcases Nat.eq_zero_or_pos q with rfl | hpos
    · exact ⟨0, mem_range.2 htot, (hblk 0 htot).2 (.inl ⟨by rw [deltaAt_zero], hz⟩)⟩
    · -- The row is in the chunks of some task.
      obtain ⟨task, htsk, h₁, h₂⟩ := DistinctAggregator.exists_le_lt_succ
        (f := fun k => chunks.position (DistinctAggregator.blockBegin chunks totalTasks k)) (q := q)
        (n := totalTasks) (by simp [hz]) (by rw [hend, ChunkedRows.position_length]; exact hq)
      exact ⟨task, mem_range.2 htsk, (hblk task htsk).2 (.inr ⟨q, hpos, h₁, h₂, rfl⟩)⟩

theorem applyDeltas_eq {totalTasks : ℕ} (htot : 0 < totalTasks) {writes : List (ℕ × ℕ)}
    (hwrs : writes.Perm ((List.range totalTasks).flatMap (T.buildLeaves rows chunks totalTasks)))
    {q : ℕ} (hq : q < chunks.count) : applyDeltas writes q = T.deltaAt rows q := by
  refine foldl_update_of_mem _ (fun w hw hwq => ?_)
    ⟨(q, T.deltaAt rows q), hwrs.mem_iff.2 ((mem_buildLeaves htot).2 (.inr ⟨q, hq, rfl⟩)), rfl⟩
  rcases (mem_buildLeaves htot).1 (hwrs.mem_iff.1 hw) with rfl | ⟨q', -, rfl⟩
  · rw [← hwq, deltaAt_zero]
  · rw [← hwq]

/-! ## Tokens -/

omit [DecidableEq V] in
/-- The token of a row is the sum of the deltas up to it. -/
theorem buildTokens_getElem {deltas : ℕ → ℕ} (hnd : rows.Nodup) {q : ℕ} (hq : q < rows.length) :
    buildTokens rows deltas rows[q] = ∑ k ∈ Finset.range (q + 1), deltas k := by
  have hfold : ∀ n ≤ rows.length, ((range n).foldl (nextToken rows deltas) (0, fun _ => 0)).1 =
        ∑ k ∈ Finset.range n, deltas k ∧
      ∀ q (hq : q < rows.length), q < n → ((range n).foldl (nextToken rows deltas) (0, fun _ => 0)).2 rows[q] =
          ∑ k ∈ Finset.range (q + 1), deltas k := by
    intro n
    induction n with
    | zero => exact fun _ => ⟨rfl, fun q _ h => absurd h (Nat.not_lt_zero q)⟩
    | succ n ih =>
      intro hn
      obtain ⟨hsum, htokens⟩ := ih (by omega)
      rw [range_succ, foldl_append, foldl_cons, foldl_nil, nextToken, hsum, Finset.sum_range_succ]
      refine ⟨rfl, fun q hq hqn => ?_⟩
      rw [getD_eq_getElem _ _ (show n < rows.length by omega)]
      simp only
      rcases Nat.lt_succ_iff_lt_or_eq.1 hqn with hlt | rfl
      · rw [Function.update_of_ne, htokens q hq hlt]
        intro heq
        rw [hnd.getElem_inj_iff] at heq
        omega
      · rw [Function.update_self, Finset.sum_range_succ]
  exact (hfold rows.length le_rfl).2 q hq hq

/-- The token of the row at the position `q` of the sorted rows. -/
def tokenAt (T : TokenTree V) (rows : List ℕ) (q : ℕ) : ℕ := ∑ k ∈ Finset.range (q + 1), T.deltaAt rows k

end TokenTree

namespace TokenTree

variable {V : Type*} [LinearOrder V] {T : TokenTree V} {rows : List ℕ} {chunks : ChunkedRows}

theorem Sorts.length_eq (h : T.Sorts rows) : rows.length = T.count := by
  rw [h.perm.length_eq, length_range]

theorem Sorts.nodup (h : T.Sorts rows) : rows.Nodup := h.perm.nodup_iff.2 nodup_range

theorem Sorts.sortKey_le (h : T.Sorts rows) {q q' : ℕ} (hq : q ≤ q') (hq' : q' < rows.length) :
    T.sortKey (rows.getD q 0) ≤ T.sortKey (rows.getD q' 0) := by
  rcases hq.eq_or_lt with rfl | hlt
  · exact le_rfl
  · rw [getD_eq_getElem _ _ (hlt.trans hq'), getD_eq_getElem _ _ hq']
    exact pairwise_iff_getElem.1 h.sorted q q' (hlt.trans hq') hq' hlt

/-- Further up in the sorted rows the tokens are larger, unless the keys are equal. -/
theorem Sorts.tokenAt_le (h : T.Sorts rows) {q q' : ℕ} (hq : q ≤ q') (hq' : q' < rows.length) :
    T.tokenAt rows q ≤ T.tokenAt rows q' ∧ (T.tokenAt rows q = T.tokenAt rows q' ↔
      T.sortKey (rows.getD q 0) = T.sortKey (rows.getD q' 0)) := by
  induction q', hq using Nat.le_induction with
  | base => exact ⟨le_rfl, iff_of_true rfl rfl⟩
  | succ q' hq ih =>
    obtain ⟨hle, hiff⟩ := ih (by omega)
    have hsucc : T.tokenAt rows (q' + 1) = T.tokenAt rows q' + T.deltaAt rows (q' + 1) := Finset.sum_range_succ _ _
    by_cases heq : T.sortKey (rows.getD (q' + 1) 0) = T.sortKey (rows.getD q' 0)
    · rw [hsucc, deltaAt_of_eq heq, Nat.add_zero, heq]
      exact ⟨hle, hiff⟩
    · rw [hsucc, deltaAt_of_ne (by omega) heq]
      refine ⟨by omega, iff_of_false (by omega) fun hkeys => ?_⟩
      exact heq (le_antisymm (hkeys ▸ h.sortKey_le hq (by omega))
        (h.sortKey_le (Nat.le_succ q') hq'))

/-- Tokens are ordered as the keys are. -/
theorem Sorts.tokenAt_lt_iff (h : T.Sorts rows) {q q' : ℕ} (hq : q < rows.length)
    (hq' : q' < rows.length) : T.tokenAt rows q < T.tokenAt rows q' ↔
      T.sortKey (rows.getD q 0) < T.sortKey (rows.getD q' 0) := by
  rcases Nat.le_total q q' with hle | hle
  · obtain ⟨h₁, h₂⟩ := h.tokenAt_le hle hq'
    rw [lt_iff_le_and_ne, lt_iff_le_and_ne, ne_eq, ne_eq, h₂]
    exact ⟨fun h' => ⟨h.sortKey_le hle hq', h'.2⟩, fun h' => ⟨h₁, h'.2⟩⟩
  · exact iff_of_false (not_lt.2 (h.tokenAt_le hle hq).1) (not_lt.2 (h.sortKey_le hle hq))

/-- The tasks have written their deltas, in some order: `rows` are the sorted rows, in `chunks`. -/
structure Wrote (T : TokenTree V) (rows : List ℕ) (writes : List (ℕ × ℕ)) : Prop where
  sorts : T.Sorts rows
  writes : ∃ (chunks : ChunkedRows) (totalTasks : ℕ), chunks.count = T.count ∧ 0 < totalTasks ∧
    writes.Perm ((List.range totalTasks).flatMap (T.buildLeaves rows chunks totalTasks))

variable {writes : List (ℕ × ℕ)}

theorem Wrote.token_lt_iff (h : T.Wrote rows writes) {i j : ℕ} (hi : i < T.count)
    (hj : j < T.count) : buildTokens rows (applyDeltas writes) i <
      buildTokens rows (applyDeltas writes) j ↔ T.sortKey i < T.sortKey j := by
  obtain ⟨chunks, totalTasks, hcnt, htot, hwrs⟩ := h.writes
  have htoken : ∀ i < T.count, ∃ q < rows.length, rows.getD q 0 = i ∧
      buildTokens rows (applyDeltas writes) i = T.tokenAt rows q := by
    intro i hi
    obtain ⟨q, hq, rfl⟩ := mem_iff_getElem.1
      (h.sorts.perm.mem_iff.2 (mem_range.2 hi))
    refine ⟨q, hq, getD_eq_getElem _ _ hq, ?_⟩
    rw [buildTokens_getElem h.sorts.nodup hq]
    refine Finset.sum_congr rfl fun k hk => applyDeltas_eq htot hwrs ?_
    have := Finset.mem_range.1 hk
    rw [h.sorts.length_eq] at hq
    omega
  obtain ⟨q, hq, rfl, hqt⟩ := htoken i hi
  obtain ⟨q', hq', rfl, hqt'⟩ := htoken j hj
  rw [hqt, hqt', h.sorts.tokenAt_lt_iff hq hq']

/-! ## Ranks -/

theorem foldl_add_calls (calls : List MergeSortTree.AggregateCall) (n : ℕ) :
    calls.foldl (fun n c => n + (c.runPos - c.runBegin)) n = n + (calls.map fun c => c.runPos - c.runBegin).sum := by
  induction calls generalizing n with
  | nil => rfl
  | cons c calls ih => rw [foldl_cons, ih, map_cons, sum_cons, Nat.add_assoc]

theorem countLt_of_le {E : Type*} [LinearOrder E] (f : ℕ → E) {a b : ℕ} (h : b ≤ a) (x : E) :
    countLt f a b x = 0 := by
  rw [countLt, Nat.sub_eq_zero_of_le h, Nat.count_zero]

/-- The places of `x` in a frame add up, also if it is empty. -/
theorem sum_aggregateLowerBound {E : Type*} [LinearOrder E] {tree : MergeSortTree E}
    {leaves : ℕ → E} (h : tree.Built leaves) (x : E) {lower upper : ℕ} (hup : upper ≤ tree.count) :
    ((tree.aggregateLowerBound x lower upper).map fun c => c.runPos - c.runBegin).sum =
      countLt leaves lower upper x := by
  rcases Nat.lt_or_ge lower upper with hlt | hge
  · exact (h.covers_aggregateLowerBound hlt hup x).sum_eq
  · rw [MergeSortTree.aggregateLowerBound, if_pos hge, countLt_of_le _ hge]
    rfl

/-- The rows of a frame that satisfy `p`. -/
def frameCount (p : ℕ → Prop) [DecidablePred p] (lower upper : ℕ) : ℕ :=
  (List.range' lower (upper - lower)).countP fun i => p i

theorem frameCount_congr {p p' : ℕ → Prop} [DecidablePred p] [DecidablePred p'] {lower upper : ℕ}
    (h : ∀ i, lower ≤ i → i < upper → (p i ↔ p' i)) :
    frameCount p lower upper = frameCount p' lower upper := by
  refine countP_congr fun i hi => ?_
  rw [mem_range'_1] at hi
  rw [decide_eq_true_iff, decide_eq_true_iff]
  exact h i hi.1 (by omega)

variable {lower upper row : ℕ}

omit [LinearOrder V] in
theorem count_build (T : TokenTree V) (rows : List ℕ) (writes : List (ℕ × ℕ)) :
    (T.build rows writes).count = T.count := by
  rw [build, (MergeSortTree.build_built _).2, length_map, length_range]

theorem sum_build (T : TokenTree V) (rows : List ℕ) (writes : List (ℕ × ℕ)) (x : ℕ) (hup : upper ≤ T.count) :
    (((T.build rows writes).aggregateLowerBound x lower upper).map fun c => c.runPos - c.runBegin).sum =
      frameCount (fun i => buildTokens rows (applyDeltas writes) i < x) lower upper := by
  have hbt := (MergeSortTree.build_built ((range T.count).map (buildTokens rows (applyDeltas writes)))).1
  rw [build, sum_aggregateLowerBound hbt x (by rw [← build, count_build]; exact hup),
    MergeSortTree.countLt_eq_countP]
  refine frameCount_congr fun i _ hi => ?_
  rw [getD_eq_getElem _ _ (by rw [length_map, length_range]; omega), getElem_map, getElem_range]

theorem elements_build (T : TokenTree V) (rows : List ℕ) (writes : List (ℕ × ℕ)) (hrow : row < T.count) :
    (T.build rows writes).elements 0 row = buildTokens rows (applyDeltas writes) row := by
  have hbt := (MergeSortTree.build_built ((range T.count).map (buildTokens rows (applyDeltas writes)))).1
  rw [build, hbt.lowest row (by rw [← build, count_build]; exact hrow),
    getD_eq_getElem _ _ (by rw [length_map, length_range]; exact hrow),
    getElem_map, getElem_range]

theorem Wrote.rank_eq (h : T.Wrote rows writes) (hrow : row < T.count) (hup : upper ≤ T.count) :
    rank (T.build rows writes) lower upper row =
      1 + frameCount (fun i => T.sortKey i < T.sortKey row) lower upper := by
  rw [rank, foldl_add_calls, elements_build T rows writes hrow, sum_build T rows writes _ hup]
  refine congrArg (1 + ·) (frameCount_congr fun i _ hi => ?_)
  exact h.token_lt_iff (hi.trans_le hup) hrow

/-- The end of the peers of a row in a frame: behind the rows of the frame with a key that is not
    larger. -/
theorem Wrote.peerEnd_eq (h : T.Wrote rows writes) (hrow : row < T.count) (hup : upper ≤ T.count) :
    peerEnd (T.build rows writes) lower upper row =
      lower + frameCount (fun i => T.sortKey i ≤ T.sortKey row) lower upper := by
  rw [peerEnd, foldl_add_calls, elements_build T rows writes hrow, sum_build T rows writes _ hup]
  refine congrArg (lower + ·) (frameCount_congr fun i _ hi => ?_)
  rw [Nat.lt_succ_iff, ← not_lt, ← not_lt]
  exact not_congr (h.token_lt_iff hrow (hi.trans_le hup))

end TokenTree

end WfOpt

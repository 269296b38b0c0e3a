import WfOpt.Window.DistinctAggregator

/-!
# Links to previous rows

The rows that pass the filter are sorted by their arguments, so that the previous row with the same arguments is the
one before. The links are written by tasks for blocks of chunks, which need no more than the last row before the
block. The writes can be done in any order (`DistinctAggregator.applyLinks_eq`).
-/

namespace WfOpt

open List Function

/-! ## Writes -/

/-- Where all writes agree, their order does not matter. -/
theorem foldl_update_of_mem {β : Type*} (f : ℕ → β) {writes : List (ℕ × β)} {i : ℕ} {v : β}
    (hall : ∀ w ∈ writes, w.1 = i → w.2 = v) (hex : ∃ w ∈ writes, w.1 = i) :
    writes.foldl (fun f w => update f w.1 w.2) f i = v := by
  induction writes using reverseRecOn with
  | nil =>
    obtain ⟨w, hw, -⟩ := hex
    exact absurd hw not_mem_nil
  | append_singleton writes w ih =>
    rw [foldl_append, foldl_cons, foldl_nil]
    by_cases hw : w.1 = i
    · rw [hw, update_self]
      exact hall w (mem_append_right _ (mem_singleton_self w)) hw
    · rw [update_of_ne (Ne.symm hw)]
      refine ih (fun w hw => hall w (mem_append_left _ hw)) ?_
      obtain ⟨w', hw', hi⟩ := hex
      rcases mem_append.1 hw' with h | h
      · exact ⟨w', h, hi⟩
      · rw [mem_singleton] at h
        exact absurd (h ▸ hi) hw

/-! ## Calls of the delta scan -/

/-- Calls compare rows without gaps, from the row `start` on. -/
def Contiguous : ℕ → List DeltaCall → Prop
  | _, [] => True
  | start, call :: calls =>
    call.rowIdx = start ∧ 1 ≤ call.count ∧ Contiguous (start + call.count) calls

namespace MaskedRows

variable {V : Type*} {g : MaskedRows V}

theorem contiguous_deltaLoop {e c : ℕ} {boundary : Bool} {rowIdx : ℕ} (he : e ≤ g.chunks.length)
    (hc : c < e) (hrow : boundary = false → rowIdx = g.position c + 1) :
    Contiguous (if boundary then g.position (c + 1) else g.position c + 1)
      (g.deltaLoop e c boundary rowIdx) := by
  fun_induction deltaLoop g e c boundary rowIdx with
  | case1 c rowIdx _ hend => trivial
  | case2 c rowIdx _ rowIdx' hend₁ hend₂ ih =>
    exact ⟨rfl, le_rfl, ih (by omega) fun _ => rfl⟩
  | case3 c rowIdx _ count hz ih =>
    -- The chunk has one row, so the next chunk starts behind it.
    have hpos := ChunkedRows.position_succ (g := g.toChunkedRows)
      (show c < g.chunks.length by omega)
    have hsz := ChunkedRows.chunkSize_pos (g := g.toChunkedRows)
      (show c < g.chunks.length by omega)
    have hrst := ih hc fun h => absurd h (by decide)
    rw [if_pos rfl, hpos] at hrst
    rwa [show g.chunkSize c = 1 by omega] at hrst
  | case4 c rowIdx _ count hz ih =>
    have hpos := ChunkedRows.position_succ (g := g.toChunkedRows)
      (show c < g.chunks.length by omega)
    have hrst := ih hc fun h => absurd h (by decide)
    obtain rfl := hrow rfl
    rw [if_pos rfl, hpos, show g.position c + g.chunkSize c =
      g.position c + 1 + (g.chunkSize c - 1) by omega] at hrst
    exact ⟨rfl, Nat.one_le_iff_ne_zero.2 hz, hrst⟩
  | case5 c boundary rowIdx h => exact absurd hc h

theorem contiguous_windowDeltaScanner {b e : ℕ} (hbe : b < e) (he : e ≤ g.chunks.length) :
    Contiguous (if b = 0 then 1 else g.position b) (g.windowDeltaScanner b e) := by
  have hcnt : g.count ≠ 0 := by
    rw [← ChunkedRows.position_length]
    exact (position_pos (by omega) le_rfl).ne'
  rw [windowDeltaScanner, if_neg hcnt]
  rcases Nat.eq_zero_or_pos b with rfl | hb
  · exact @contiguous_deltaLoop _ g e 0 false 1 he hbe fun _ => rfl
  · have hloop := @contiguous_deltaLoop _ g e (b - 1) true 1 he (by omega)
      fun h => absurd h (by decide)
    rw [if_pos rfl, Nat.sub_add_cancel hb] at hloop
    rw [if_neg hb.ne', decide_eq_true hb]
    exact hloop

/-- An empty block has no rows to compare. -/
theorem windowDeltaScanner_self (b : ℕ) : g.windowDeltaScanner b b = [] := by
  rw [windowDeltaScanner]
  split_ifs
  · rfl
  rcases Nat.eq_zero_or_pos b with rfl | hb
  · rw [deltaLoop.eq_def, if_neg (by decide)]
  · rw [decide_eq_true hb, deltaLoop.eq_def, if_pos (by omega)]
    rw [if_pos (Or.inl (by omega))]

end MaskedRows

namespace DistinctAggregator

variable {V σ : Type*} [LinearOrder V] {T : DistinctAggregator V σ} {chunks : ChunkedRows}

/-- The link of the row at the position `q` of the sorted rows: to the row before, if it has the
    same arguments. -/
def linkAt (T : DistinctAggregator V σ) (q : ℕ) : ℕ :=
  if 1 ≤ q ∧ T.args (T.inputIdx q) = T.args (T.inputIdx (q - 1)) then T.inputIdx (q - 1) + 1 else 0

theorem linkAt_of_eq {q : ℕ} (hq : 1 ≤ q) (h : T.args (T.inputIdx q) = T.args (T.inputIdx (q - 1))) :
    T.linkAt q = T.inputIdx (q - 1) + 1 := if_pos ⟨hq, h⟩

theorem linkAt_of_ne {q : ℕ} (h : T.args (T.inputIdx q) ≠ T.args (T.inputIdx (q - 1))) :
    T.linkAt q = 0 := if_neg fun h' => h h'.2

theorem args_eq_iff (chunks : ChunkedRows) {call : DeltaCall} (hcall : call.Adjacent) {i : ℕ} (hi : i < call.count) :
    (∀ c ∈ range T.keyCount, (T.sorted chunks).callDiffers call c i = false) ↔
      T.args (T.inputIdx (call.rowIdx + i)) = T.args (T.inputIdx (call.rowIdx + i - 1)) := by
  rw [args, args, map_inj_left]
  refine forall₂_congr fun c _ => ?_
  rw [MaskedRows.callDiffers, decide_eq_false_iff_not, not_not, hcall.curr_eq i hi, hcall.prev_eq i hi]
  rfl

variable {w : ℕ × ℕ}

/-- The rows linked by a call are those that it compares. -/
theorem mem_linkCall {call : DeltaCall} (hcall : call.Adjacent) (hpos : 1 ≤ call.rowIdx) {prevI : ℕ}
    (hprev : prevI = T.inputIdx (call.rowIdx - 1)) :
    w ∈ (T.linkCall chunks prevI call).1 ↔
      ∃ i < call.count, w = (T.inputIdx (call.rowIdx + i), T.linkAt (call.rowIdx + i)) := by
  obtain ⟨r, hr⟩ : ∃ r, r = distinctFrom ((T.sorted chunks).callDiffers call)
      (range T.keyCount) (range call.count) := ⟨_, rfl⟩
  have hfst : ∀ i, i ∈ r.1 ↔ i < call.count ∧
      T.args (T.inputIdx (call.rowIdx + i)) ≠ T.args (T.inputIdx (call.rowIdx + i - 1)) := by
    intro i
    rw [hr, MaskedRows.mem_distinctFrom_fst, mem_range]
    refine and_congr_right fun hi => ?_
    rw [ne_eq, ← args_eq_iff chunks hcall hi]
    push Not
    simp only [Bool.not_eq_false]
  have hsnd : ∀ i, i ∈ r.2 ↔ i < call.count ∧
      T.args (T.inputIdx (call.rowIdx + i)) = T.args (T.inputIdx (call.rowIdx + i - 1)) := by
    intro i
    rw [hr, MaskedRows.mem_distinctFrom_snd, mem_range]
    exact and_congr_right fun hi => args_eq_iff chunks hcall hi
  have hlen : r.1.length + r.2.length = call.count := by
    rw [hr, MaskedRows.length_distinctFrom, length_range]
  -- All of the matching rows are read.
  have hmatch : ∀ i, i ∈ ((if r.1 = [] then range call.count else r.2).take
      (call.count - r.1.length)) ↔ i ∈ r.2 := by
    intro i
    split_ifs with hnil
    · rw [hnil, length_nil, Nat.sub_zero, take_of_length_le (by rw [length_range]), mem_range, hsnd]
      refine ⟨fun hi => ⟨hi, ?_⟩, fun h => h.1⟩
      by_contra hne
      have hmem := (hfst i).2 ⟨hi, hne⟩
      rw [hnil] at hmem
      exact not_mem_nil hmem
    · rw [take_of_length_le (by omega)]
  have hbef : ∀ i < call.count, (if i ≠ 0 then T.inputIdx (call.curr.getD (i - 1) 0) else prevI) =
      T.inputIdx (call.rowIdx + i - 1) := by
    intro i hi
    split_ifs with hz
    · rw [hcall.curr_eq (i - 1) (by omega), Nat.add_sub_assoc (by omega)]
    · rw [hprev, not_not.1 hz, Nat.add_zero]
  rw [linkCall, ← hr, hcall.length_eq]
  simp only [mem_append, mem_map, hmatch]
  constructor
  · rintro (⟨i, hi, rfl⟩ | ⟨i, hi, rfl⟩)
    · obtain ⟨hi, heq⟩ := (hsnd i).1 hi
      refine ⟨i, hi, ?_⟩
      rw [hcall.curr_eq i hi, hbef i hi, linkAt_of_eq (by omega) heq]
    · obtain ⟨hi, hne⟩ := (hfst i).1 hi
      refine ⟨i, hi, ?_⟩
      rw [hcall.curr_eq i hi, linkAt_of_ne hne]
  · rintro ⟨i, hi, rfl⟩
    by_cases heq : T.args (T.inputIdx (call.rowIdx + i)) = T.args (T.inputIdx (call.rowIdx + i - 1))
    · refine .inl ⟨i, (hsnd i).2 ⟨hi, heq⟩, ?_⟩
      rw [hcall.curr_eq i hi, hbef i hi, linkAt_of_eq (by omega) heq]
    · refine .inr ⟨i, (hfst i).2 ⟨hi, heq⟩, ?_⟩
      rw [hcall.curr_eq i hi, linkAt_of_ne heq]

theorem snd_linkCall {call : DeltaCall} (hcall : call.Adjacent) (hcnt : 1 ≤ call.count) (prevI : ℕ) :
    (T.linkCall chunks prevI call).2 = T.inputIdx (call.rowIdx + call.count - 1) := by
  rw [linkCall, hcall.length_eq]
  simp only
  rw [hcall.curr_eq _ (by omega), Nat.add_sub_assoc hcnt]

theorem mem_linkCalls {calls : List DeltaCall} (hcalls : ∀ call ∈ calls, call.Adjacent) {start : ℕ}
    (hst : 1 ≤ start) (hcontiguous : Contiguous start calls) :
    w ∈ T.linkCalls chunks (T.inputIdx (start - 1)) calls ↔
      ∃ q, MaskedRows.Compares calls q ∧ w = (T.inputIdx q, T.linkAt q) := by
  induction calls generalizing start with
  | nil =>
    rw [linkCalls]
    simp [MaskedRows.Compares]
  | cons call calls ih =>
    obtain ⟨rfl, hcnt, hrst⟩ := hcontiguous
    rw [forall_mem_cons] at hcalls
    rw [linkCalls, mem_append, mem_linkCall hcalls.1 hst rfl,
      snd_linkCall hcalls.1 hcnt, ih hcalls.2 (by omega) hrst]
    simp only [MaskedRows.compares_cons]
    constructor
    · rintro (⟨i, hi, rfl⟩ | ⟨q, hq, rfl⟩)
      · exact ⟨call.rowIdx + i, .inl ⟨Nat.le_add_right _ _, by omega⟩, rfl⟩
      · exact ⟨q, .inr hq, rfl⟩
    · rintro ⟨q, ⟨h₁, h₂⟩ | hq, rfl⟩
      · refine .inl ⟨q - call.rowIdx, by omega, ?_⟩
        rw [Nat.add_sub_cancel' h₁]
      · exact .inr ⟨q, hq, rfl⟩

/-! ## Blocks -/

/-- Between its start and its end, a sequence passes every value. -/
theorem exists_le_lt_succ {f : ℕ → ℕ} {q n : ℕ} (h0 : f 0 ≤ q) (hn : q < f n) :
    ∃ c < n, f c ≤ q ∧ q < f (c + 1) := by
  induction n with
  | zero => omega
  | succ n ih =>
    rcases Nat.lt_or_ge q (f n) with hlt | hge
    · obtain ⟨c, hc, h⟩ := ih hlt
      exact ⟨c, hc.trans (Nat.lt_succ_self n), h⟩
    · exact ⟨n, Nat.lt_succ_self n, hge, hn⟩

variable {totalTasks blockIdx : ℕ}

theorem blockBegin_le (chunks : ChunkedRows) (hblk : blockIdx ≤ totalTasks) :
    blockBegin chunks totalTasks blockIdx ≤ chunks.chunks.length := by
  rcases Nat.eq_zero_or_pos totalTasks with rfl | htot
  · rw [blockBegin, Nat.div_zero]
    exact Nat.zero_le _
  · exact Nat.div_le_of_le_mul (Nat.mul_le_mul_right _ hblk)

theorem blockBegin_mono (chunks : ChunkedRows) (totalTasks blockIdx : ℕ) :
    blockBegin chunks totalTasks blockIdx ≤ blockBegin chunks totalTasks (blockIdx + 1) :=
  Nat.div_le_div_right (Nat.mul_le_mul_right _ (Nat.le_succ blockIdx))

theorem linkAt_zero : T.linkAt 0 = 0 := if_neg fun h => absurd h.1 (by decide)

theorem mem_linkCalls_block {b e prevI : ℕ} (hbe : b ≤ e) (he : e ≤ chunks.chunks.length)
    (hprev : prevI = T.inputIdx ((if b = 0 then 1 else chunks.position b) - 1)) :
    w ∈ T.linkCalls chunks prevI ((T.sorted chunks).windowDeltaScanner b e) ↔
      ∃ q, 1 ≤ q ∧ chunks.position b ≤ q ∧ q < chunks.position e ∧ w = (T.inputIdx q, T.linkAt q) := by
  rcases hbe.eq_or_lt with rfl | hlt
  · rw [MaskedRows.windowDeltaScanner_self, linkCalls]
    refine iff_of_false not_mem_nil ?_
    omega
  · obtain ⟨hadjacent, hcompares⟩ := MaskedRows.windowDeltaScanner_spec (g := T.sorted chunks) hlt he
    have hcontiguous := MaskedRows.contiguous_windowDeltaScanner (g := T.sorted chunks) hlt he
    have hst : 1 ≤ if b = 0 then 1 else chunks.position b := by
      split_ifs with hb
      · exact le_rfl
      · exact MaskedRows.position_pos (g := T.sorted chunks) (Nat.pos_of_ne_zero hb)
          (hlt.le.trans he)
    rw [hprev, mem_linkCalls hadjacent hst hcontiguous]
    refine exists_congr fun q => ?_
    rw [hcompares q, and_assoc, and_assoc]
    rfl

/-- The rows of a block are linked by its task, and the first row by those that start there. -/
theorem mem_linkBlock (hblk : blockIdx < totalTasks) : w ∈ T.linkBlock chunks totalTasks blockIdx ↔
      ∃ q, (q = 0 ∧ chunks.chunks.length ≠ 0 ∧ blockBegin chunks totalTasks blockIdx = 0 ∨
        1 ≤ q ∧ chunks.position (blockBegin chunks totalTasks blockIdx) ≤ q ∧
          q < chunks.position (blockBegin chunks totalTasks (blockIdx + 1))) ∧
        w = (T.inputIdx q, T.linkAt q) := by
  have hmono := blockBegin_mono chunks totalTasks blockIdx
  have hlst : blockBegin chunks totalTasks (blockIdx + 1) ≤ chunks.chunks.length := blockBegin_le chunks hblk
  rw [linkBlock]
  by_cases hno : chunks.chunks.length = 0
  · rw [if_pos hno]
    refine iff_of_false not_mem_nil ?_
    rintro ⟨q, (⟨-, h, -⟩ | ⟨-, h₁, h₂⟩), -⟩
    · exact h hno
    · rw [hno, Nat.le_zero] at hlst
      rw [hlst, ChunkedRows.position_zero] at h₂
      exact Nat.not_lt_zero q h₂
  rw [if_neg hno]
  by_cases hfst : blockBegin chunks totalTasks blockIdx = 0
  · rw [if_pos hfst, mem_cons, mem_linkCalls_block hmono hlst (by rw [if_pos hfst])]
    constructor
    · rintro (rfl | ⟨q, h₁, h₂, h₃, rfl⟩)
      · exact ⟨0, .inl ⟨rfl, hno, hfst⟩, by rw [linkAt_zero]⟩
      · exact ⟨q, .inr ⟨h₁, h₂, h₃⟩, rfl⟩
    · rintro ⟨q, (⟨rfl, -, -⟩ | ⟨h₁, h₂, h₃⟩), rfl⟩
      · exact .inl (by rw [linkAt_zero])
      · exact .inr ⟨q, h₁, h₂, h₃, rfl⟩
  · -- The row before the block is the last one of the chunk before.
    have hbef : chunks.position (blockBegin chunks totalTasks blockIdx - 1) +
        chunks.chunkSize (blockBegin chunks totalTasks blockIdx - 1) =
        chunks.position (blockBegin chunks totalTasks blockIdx) := by
      rw [← ChunkedRows.position_succ (by omega), Nat.sub_add_cancel (Nat.pos_of_ne_zero hfst)]
    rw [if_neg hfst, mem_linkCalls_block hmono hlst (by rw [if_neg hfst, hbef])]
    refine exists_congr fun q => ?_
    constructor
    · rintro ⟨h₁, h₂, h₃, h₄⟩
      exact ⟨.inr ⟨h₁, h₂, h₃⟩, h₄⟩
    · rintro ⟨(⟨-, -, h⟩ | ⟨h₁, h₂, h₃⟩), h₄⟩
      · exact absurd h hfst
      · exact ⟨h₁, h₂, h₃, h₄⟩

/-- All tasks together link all of the sorted rows. -/
theorem mem_linkBlocks (htot : 0 < totalTasks) : w ∈ (range totalTasks).flatMap (T.linkBlock chunks totalTasks) ↔
      ∃ q < chunks.count, w = (T.inputIdx q, T.linkAt q) := by
  have hend : blockBegin chunks totalTasks totalTasks = chunks.chunks.length := Nat.mul_div_cancel_left _ htot
  rw [mem_flatMap]
  constructor
  · rintro ⟨k, hk, hw⟩
    rw [mem_range] at hk
    obtain ⟨q, hq, rfl⟩ := (mem_linkBlock hk).1 hw
    refine ⟨q, ?_, rfl⟩
    rcases hq with ⟨rfl, hne, -⟩ | ⟨-, -, hlt⟩
    · rw [← ChunkedRows.position_length]
      exact MaskedRows.position_pos (g := T.sorted chunks) (Nat.pos_of_ne_zero hne) le_rfl
    · rw [← ChunkedRows.position_length]
      exact hlt.trans_le (ChunkedRows.position_mono (blockBegin_le chunks hk))
  · rintro ⟨q, hq, rfl⟩
    have hne : chunks.chunks.length ≠ 0 := by
      intro h
      rw [← ChunkedRows.position_length, h, ChunkedRows.position_zero] at hq
      exact Nat.not_lt_zero q hq
    rcases Nat.eq_zero_or_pos q with rfl | hpos
    · refine ⟨0, mem_range.2 htot, (mem_linkBlock htot).2 ⟨0, .inl ⟨rfl, hne, ?_⟩, rfl⟩⟩
      rw [blockBegin, Nat.zero_mul, Nat.zero_div]
    · -- The row is in the chunks of some block.
      obtain ⟨k, hk, h₁, h₂⟩ := exists_le_lt_succ
        (f := fun k => chunks.position (blockBegin chunks totalTasks k)) (q := q) (n := totalTasks)
        (by simp [blockBegin]) (by rw [hend, ChunkedRows.position_length]; exact hq)
      exact ⟨k, mem_range.2 hk, (mem_linkBlock hk).2 ⟨q, .inr ⟨hpos, h₁, h₂⟩, rfl⟩⟩

/-! ## The rows before -/

theorem sortsBefore_trans (T : DistinctAggregator V σ) (i j k : ℕ) (h₁ : T.sortsBefore i j = true)
    (h₂ : T.sortsBefore j k = true) : T.sortsBefore i k = true := by
  rw [sortsBefore, decide_eq_true_iff] at *
  rcases h₁ with h₁ | ⟨h₁, h₁'⟩
  · rcases h₂ with h₂ | ⟨h₂, -⟩
    · exact .inl (h₁.trans h₂)
    · exact .inl (h₂ ▸ h₁)
  · rcases h₂ with h₂ | ⟨h₂, h₂'⟩
    · exact .inl (h₁ ▸ h₂)
    · exact .inr ⟨h₁.trans h₂, h₁'.trans h₂'⟩

theorem sortsBefore_total (T : DistinctAggregator V σ) (i j : ℕ) :
    (T.sortsBefore i j || T.sortsBefore j i) = true := by
  rw [Bool.or_eq_true, sortsBefore, sortsBefore, decide_eq_true_iff, decide_eq_true_iff]
  rcases lt_trichotomy (T.args i) (T.args j) with h | h | h
  · exact .inl (.inl h)
  · rcases Nat.le_total i j with h' | h'
    · exact .inl (.inr ⟨h, h'⟩)
    · exact .inr (.inr ⟨h.symm, h'⟩)
  · exact .inr (.inl h)

theorem mem_sortedRows {i : ℕ} : i ∈ T.sortedRows ↔ i < T.collection.count ∧ T.included i = true := by
  rw [sortedRows, (mergeSort_perm _ _).mem_iff, mem_filter, mem_range]

theorem nodup_sortedRows : T.sortedRows.Nodup := (mergeSort_perm _ _).nodup_iff.2 (nodup_range.filter _)

theorem inputIdx_eq {q : ℕ} (hq : q < T.sortedRows.length) : T.inputIdx q = T.sortedRows[q] := by
  rw [inputIdx, getD_eq_getElem _ _ hq]

theorem sortsBefore_inputIdx {q q' : ℕ} (h : q ≤ q') (hq' : q' < T.sortedRows.length) :
    T.args (T.inputIdx q) < T.args (T.inputIdx q') ∨
      (T.args (T.inputIdx q) = T.args (T.inputIdx q') ∧ T.inputIdx q ≤ T.inputIdx q') := by
  rcases h.eq_or_lt with rfl | hlt
  · exact .inr ⟨rfl, le_rfl⟩
  · have hsort := pairwise_mergeSort T.sortsBefore_trans T.sortsBefore_total
      ((range T.collection.count).filter T.included)
    have := pairwise_iff_getElem.1 hsort q q' (hlt.trans hq') hq' hlt
    rw [inputIdx_eq (hlt.trans hq'), inputIdx_eq hq']
    rwa [sortsBefore, decide_eq_true_iff] at this

/-- A row that passes the filter is one of the sorted rows. -/
theorem exists_inputIdx {i : ℕ} (hi : i < T.collection.count) (h : T.included i = true) :
    ∃ q < T.sortedRows.length, T.inputIdx q = i := by
  obtain ⟨q, hq, hqi⟩ := mem_iff_getElem.1 (mem_sortedRows.2 ⟨hi, h⟩)
  exact ⟨q, hq, (inputIdx_eq hq).trans hqi⟩

/-- A row that passes the filter has no link to a row from `lower` on, if it is the first of those with its arguments. -/
theorem linkAt_lt_iff {q lower : ℕ} (hq : q < T.sortedRows.length) :
    T.linkAt q < lower + 1 ↔ ∀ j, lower ≤ j → j < T.inputIdx q → T.included j = true →
      T.args j ≠ T.args (T.inputIdx q) := by
  have hmem : ∀ q < T.sortedRows.length, T.inputIdx q < T.collection.count ∧ T.included (T.inputIdx q) = true := by
    intro q hq
    rw [inputIdx_eq hq]
    exact mem_sortedRows.1 (getElem_mem hq)
  -- A row with the same arguments that comes before it is at an earlier position.
  have hearlier : ∀ j < T.inputIdx q, T.included j = true → T.args j = T.args (T.inputIdx q) →
      ∃ q' < q, T.inputIdx q' = j := by
    intro j hj hinc hargs
    obtain ⟨q', hq', rfl⟩ := exists_inputIdx (hj.trans (hmem q hq).1) hinc
    refine ⟨q', ?_, rfl⟩
    by_contra hge
    rcases sortsBefore_inputIdx (not_lt.1 hge) hq' with h | ⟨-, h⟩
    · exact absurd hargs h.ne'
    · omega
  by_cases hlink : 1 ≤ q ∧ T.args (T.inputIdx q) = T.args (T.inputIdx (q - 1))
  · rw [linkAt_of_eq hlink.1 hlink.2]
    constructor
    · intro hlt j hle hj hinc hargs
      obtain ⟨q', hq', rfl⟩ := hearlier j hj hinc hargs
      rcases sortsBefore_inputIdx (T := T) (show q' ≤ q - 1 by omega) (by omega) with h | ⟨-, h⟩
      · exact absurd (hargs.trans hlink.2) h.ne
      · omega
    · intro hfst
      by_contra hge
      have hlt : T.inputIdx (q - 1) < T.inputIdx q := by
        rcases sortsBefore_inputIdx (T := T) (show q - 1 ≤ q by omega) hq with h | ⟨-, h⟩
        · exact absurd hlink.2 h.ne'
        · refine lt_of_le_of_ne h fun heq => ?_
          rw [inputIdx_eq hq, inputIdx_eq (by omega), nodup_sortedRows.getElem_inj_iff] at heq
          omega
      exact hfst _ (by omega) hlt (hmem (q - 1) (by omega)).2 hlink.2.symm
  · rw [linkAt, if_neg hlink]
    refine iff_of_true (Nat.succ_pos lower) fun j _ hj hinc hargs => ?_
    obtain ⟨q', hq', rfl⟩ := hearlier j hj hinc hargs
    -- The row right before it would have the same arguments.
    refine hlink ⟨by omega, ?_⟩
    have h₁ : T.args (T.inputIdx q') ≤ T.args (T.inputIdx (q - 1)) := by
      rcases sortsBefore_inputIdx (T := T) (show q' ≤ q - 1 by omega) (by omega) with h | ⟨h, -⟩
      · exact h.le
      · exact h.le
    have h₂ : T.args (T.inputIdx (q - 1)) ≤ T.args (T.inputIdx q) := by
      rcases sortsBefore_inputIdx (T := T) (show q - 1 ≤ q by omega) hq with h | ⟨h, -⟩
      · exact h.le
      · exact h.le
    exact le_antisymm (hargs ▸ h₁) h₂

/-! ## All links -/

variable {writes : List (ℕ × ℕ)}

/-- The last of the writes to a row counts. -/
theorem applyLinks_of_mem {i v : ℕ} (hall : ∀ w ∈ writes, w.1 = i → w.2 = v) (hex : ∃ w ∈ writes, w.1 = i) :
    applyLinks writes i = v :=
  foldl_update_of_mem _ hall hex

theorem applyLinks_of_not_mem {i : ℕ} (h : ∀ w ∈ writes, w.1 ≠ i) : applyLinks writes i = i + 1 := by
  rw [applyLinks]
  induction writes using reverseRecOn with
  | nil => rfl
  | append_singleton writes w ih =>
    rw [foldl_append, foldl_cons, foldl_nil, update_of_ne (h w (mem_append_right _ (mem_singleton_self w))).symm]
    exact ih fun w hw => h w (mem_append_left _ hw)

/-- Written in any order, a row has no link into the rows from `lower` on if it is the first of them with its
    arguments. -/
theorem applyLinks_lt_iff (hcnt : chunks.count = T.sortedRows.length) (htot : 0 < totalTasks)
    (hwrs : writes.Perm ((range totalTasks).flatMap (T.linkBlock chunks totalTasks)))
    {i lower : ℕ} (hi : i < T.collection.count) (hle : lower ≤ i) :
    applyLinks writes i < lower + 1 ↔
      T.included i = true ∧ ∀ j, lower ≤ j → j < i → T.included j = true → T.args j ≠ T.args i := by
  have hmem : ∀ w, w ∈ writes ↔ ∃ q < T.sortedRows.length, w = (T.inputIdx q, T.linkAt q) := by
    intro w
    rw [hwrs.mem_iff, mem_linkBlocks htot, hcnt]
  by_cases hinc : T.included i = true
  · obtain ⟨q, hq, rfl⟩ := exists_inputIdx hi hinc
    have hlink : applyLinks writes (T.inputIdx q) = T.linkAt q := by
      refine applyLinks_of_mem (fun w hw heq => ?_) ⟨_, (hmem _).2 ⟨q, hq, rfl⟩, rfl⟩
      obtain ⟨q', hq', rfl⟩ := (hmem w).1 hw
      rw [inputIdx_eq hq, inputIdx_eq hq', nodup_sortedRows.getElem_inj_iff] at heq
      rw [heq]
    rw [hlink, linkAt_lt_iff hq, and_iff_right hinc]
  · rw [applyLinks_of_not_mem]
    · refine iff_of_false (by omega) fun h => hinc h.1
    · rintro w hw rfl
      obtain ⟨q, hq, rfl⟩ := (hmem w).1 hw
      simp only [inputIdx_eq hq] at hinc
      exact hinc (mem_sortedRows.1 (getElem_mem hq)).2

end DistinctAggregator

end WfOpt

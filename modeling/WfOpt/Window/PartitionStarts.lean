import WfOpt.Window.Mask

/-!
# The cache of partition starts

With early out, the mask tasks push the rows that start a partition to the cache of their block
(`partition_begins`), in the order in which `DistinctFrom` finds them: by the first `PARTITION BY` column in which
they differ from the row before. So the cache is sorted exactly if no row behind the first one of the block starts a
partition by a column before that of an earlier row (`MaskedRows.startCache_iff`).
-/

namespace WfOpt

open List Function

/-! ## The order of distinct rows -/

section Distinct

variable {differs : ℕ → ℕ → Bool} {cols sel : List ℕ}

/-- Positions are found in order if and only if none differs in a column before the one of an earlier position. -/
theorem pairwise_distinctFrom_iff (hcols : cols.Pairwise (· < ·)) (hsel : sel.Pairwise (· < ·)) :
    (distinctFrom differs cols sel).1.Pairwise (· < ·) ↔
      ∀ i ∈ sel, ∀ j ∈ sel, i < j → (∃ c ∈ cols, differs c i = true) → ∀ c ∈ cols, differs c j = true →
        ∃ c' ∈ cols, c' ≤ c ∧ differs c' i = true := by
  induction cols generalizing sel with
  | nil => exact iff_of_true List.Pairwise.nil fun _ _ _ _ _ _ _ hc => absurd hc not_mem_nil
  | cons c cols ih =>
    obtain ⟨hmin, hcols⟩ := pairwise_cons.1 hcols
    have hrst : ∀ i, i ∈ sel.filter (fun i => !differs c i) ↔ i ∈ sel ∧ differs c i = false := by
      intro i
      rw [mem_filter, Bool.not_eq_true']
    rw [distinctFrom]
    rw [pairwise_append, ih hcols (hsel.filter _)]
    constructor
    · rintro ⟨-, hord, hlt⟩ i hi j hj hij ⟨c₁, hc₁, hdi⟩ c₂ hc₂ hdj
      cases hci : differs c i with
      | true =>
        refine ⟨c, mem_cons_self, ?_, hci⟩
        rcases mem_cons.1 hc₂ with rfl | hc₂
        · exact le_rfl
        · exact (hmin c₂ hc₂).le
      | false =>
        have hc₁' : c₁ ∈ cols := (mem_cons.1 hc₁).resolve_left (by
          rintro rfl
          exact absurd (hci.symm.trans hdi) Bool.false_ne_true)
        cases hcj : differs c j with
        | true =>
          -- Then the later position has been found before.
          have := hlt j (mem_filter.2 ⟨hj, hcj⟩) i
            (MaskedRows.mem_distinctFrom_fst.2 ⟨(hrst i).2 ⟨hi, hci⟩, c₁, hc₁', hdi⟩)
          exact absurd this hij.not_gt
        | false =>
          have hc₂' : c₂ ∈ cols := (mem_cons.1 hc₂).resolve_left (by
            rintro rfl
            exact absurd (hcj.symm.trans hdj) Bool.false_ne_true)
          obtain ⟨c', hc', hle, hd⟩ := hord i ((hrst i).2 ⟨hi, hci⟩) j ((hrst j).2 ⟨hj, hcj⟩) hij
            ⟨c₁, hc₁', hdi⟩ c₂ hc₂' hdj
          exact ⟨c', mem_cons_of_mem c hc', hle, hd⟩
    · intro hord
      refine ⟨hsel.filter _, ?_, fun a ha b hb => ?_⟩
      · rintro i hi j hj hij ⟨c₁, hc₁, hdi⟩ c₂ hc₂ hdj
        rw [hrst] at hi hj
        obtain ⟨c', hc', hle, hd⟩ := hord i hi.1 j hj.1 hij ⟨c₁, mem_cons_of_mem c hc₁, hdi⟩ c₂
          (mem_cons_of_mem c hc₂) hdj
        refine ⟨c', (mem_cons.1 hc').resolve_left ?_, hle, hd⟩
        -- The positions that are left do not differ in the first column.
        rintro rfl
        exact absurd (hi.2.symm.trans hd) Bool.false_ne_true
      · obtain ⟨hb, c₁, hc₁, hdb⟩ := MaskedRows.mem_distinctFrom_fst.1 hb
        rw [hrst] at hb
        obtain ⟨ha, hda⟩ := mem_filter.1 ha
        rcases lt_trichotomy a b with hlt | rfl | hgt
        · exact hlt
        · exact absurd (hb.2.symm.trans hda) Bool.false_ne_true
        · obtain ⟨c', hc', hle, hd⟩ := hord b hb.1 a ha hgt ⟨c₁, mem_cons_of_mem c hc₁, hdb⟩ c
            mem_cons_self hda
          rcases mem_cons.1 hc' with rfl | hc'
          · exact absurd (hb.2.symm.trans hd) Bool.false_ne_true
          · exact absurd (hmin c' hc') hle.not_gt

end Distinct

/-! ## What is pushed -/

/-- The row that a write pushes to the cache of a block. -/
def MaskStep.pushed (b : ℕ) : MaskStep → Option ℕ
  | .pushBegin block row => if block = b then some row else none
  | _ => none

/-- The rows that are pushed to the cache of a block. -/
def MaskStep.pushedRows (b : ℕ) (steps : List MaskStep) : List ℕ := steps.filterMap (pushed b)

namespace Masks

variable {b : ℕ}

theorem partitionBegins_run (s : Masks) (steps : List MaskStep) :
    (s.run steps).partitionBegins b = s.partitionBegins b ++ MaskStep.pushedRows b steps := by
  induction steps generalizing s with
  | nil => exact (append_nil _).symm
  | cons a steps ih =>
    rw [run_cons, ih, MaskStep.pushedRows, MaskStep.pushedRows, filterMap_cons]
    cases a with
    | pushBegin block row =>
      rw [step, MaskStep.pushed]
      dsimp only
      rcases eq_or_ne block b with rfl | hne
      · rw [update_self, if_pos rfl]
        exact append_assoc ..
      · rw [update_of_ne hne.symm, if_neg hne]
    | _ => rfl

end Masks

namespace MaskedRows

variable {V : Type*} (g : MaskedRows V)

/-- The call of the delta scan for the first row of a block. -/
def borderCall (b : ℕ) : DeltaCall :=
  ⟨g.position b, (g.rowsOf (b - 1)).drop (g.chunkSize (b - 1) - 1), g.rowsOf b, 1, b⟩

/-- The call for the other rows of a block. -/
def withinCall (b : ℕ) : DeltaCall := ⟨g.position b + 1, g.rowsOf b, (g.rowsOf b).drop 1, g.chunkSize b - 1, b⟩

variable [DecidableEq V]

/-- The rows that start a partition among those of a call, as they are found. -/
def callStarts (call : DeltaCall) : List ℕ :=
  (distinctFrom (g.callDiffers call) (range g.partitionCount) (range call.count)).1.map (call.rowIdx + ·)

/-- Those of a block. -/
def blockStarts (b : ℕ) : List ℕ :=
  (if b = 0 then [] else g.callStarts (g.borderCall b)) ++ g.callStarts (g.withinCall b)

variable {g}

omit [DecidableEq V] in
theorem pushedRows_markPartitions (call : DeltaCall) (distinct : List ℕ) (b : ℕ) :
    MaskStep.pushedRows b (g.markPartitions true call distinct) =
      if call.block = b then distinct.map (call.rowIdx + ·) else [] := by
  have horders : ∀ (l : List ℕ) (row : ℕ),
      (l.map fun o => MaskStep.setValid (.order o) row).filterMap (MaskStep.pushed b) = [] := by
    intro l row
    rw [filterMap_eq_nil_iff]
    intro a ha
    obtain ⟨o, -, rfl⟩ := mem_map.1 ha
    rfl
  induction distinct with
  | nil =>
    split_ifs <;> rfl
  | cons i distinct ih =>
    rw [MaskStep.pushedRows, markPartitions] at ih ⊢
    rw [flatMap_cons, filterMap_append, ih, filterMap_append, horders, append_nil]
    change MaskStep.pushedRows b [.setValid .partition (call.rowIdx + i), .pushBegin call.block (call.rowIdx + i)] ++
      _ = _
    rw [MaskStep.pushedRows, filterMap_cons_none rfl, filterMap_cons, MaskStep.pushed, filterMap_nil]
    split_ifs <;> rfl

theorem pushedRows_markPeers (call : DeltaCall) (matching : List ℕ) (n b : ℕ) :
    MaskStep.pushedRows b (g.orderColumns.flatMap (g.markPeers call matching n)) = [] := by
  rw [MaskStep.pushedRows, filterMap_eq_nil_iff]
  intro a ha
  obtain ⟨o, -, ha⟩ := mem_flatMap.1 ha
  rw [markPeers] at ha
  split_ifs at ha
  · cases ha
  · obtain ⟨i, -, rfl⟩ := mem_map.1 ha
    rfl

theorem pushedRows_append (b : ℕ) (l l' : List MaskStep) :
    MaskStep.pushedRows b (l ++ l') = MaskStep.pushedRows b l ++ MaskStep.pushedRows b l' :=
  filterMap_append

theorem pushedRows_markDistinct (call : DeltaCall) (b : ℕ) :
    MaskStep.pushedRows b (g.markDistinct true call) = if call.block = b then g.callStarts call else [] := by
  rw [markDistinct]
  split_ifs
  all_goals simp only [pushedRows_append, pushedRows_markPartitions, pushedRows_markPeers, callStarts, *, if_true,
    if_false, append_nil]

theorem pushedRows_deltaLoop {e c b : ℕ} {boundary : Bool} {rowIdx : ℕ} (he : e ≤ g.chunks.length)
    (hc : c < e) (hrow : boundary = false → rowIdx = g.position c + 1) :
    MaskStep.pushedRows b ((g.deltaLoop e c boundary rowIdx).flatMap (g.markDistinct true)) =
      if b = c ∧ boundary = false then g.callStarts (g.withinCall b)
      else if c < b ∧ b < e then g.callStarts (g.borderCall b) ++ g.callStarts (g.withinCall b)
      else [] := by
  fun_induction deltaLoop g e c boundary rowIdx with
  | case1 c rowIdx _ hend =>
    rw [if_neg (by simp), if_neg (by omega)]
    rfl
  | case2 c rowIdx _ rowIdx' hend₁ hend₂ ih =>
    rw [flatMap_cons, pushedRows_append, pushedRows_markDistinct, ih (by omega) fun _ => rfl,
      if_neg (by simp : ¬(b = c ∧ true = false))]
    rcases eq_or_ne b (c + 1) with rfl | hne
    · rw [if_pos rfl, if_pos ⟨rfl, rfl⟩, if_pos (by omega)]
      rfl
    · rw [if_neg hne.symm, if_neg fun h => hne h.1]
      exact if_congr (by omega) rfl rfl
  | case3 c rowIdx _ count hz ih =>
    rw [ih hc (absurd · Bool.false_ne_true.symm), if_neg (by simp : ¬(b = c ∧ true = false))]
    rcases eq_or_ne b c with rfl | hne
    · -- The block has only one row.
      have hnil : g.callStarts (g.withinCall b) = [] := by
        rw [callStarts, show (g.withinCall b).count = 0 from hz]
        exact map_eq_nil_iff.2 (eq_nil_iff_forall_not_mem.2 fun i hi =>
          not_mem_nil (mem_distinctFrom_fst.1 hi).1)
      rw [if_neg (by omega : ¬(b < b ∧ b < e)), if_pos ⟨rfl, rfl⟩, hnil]
    · rw [if_neg (fun h => hne h.1 : ¬(b = c ∧ false = false))]
  | case4 c rowIdx _ count hz ih =>
    obtain rfl := hrow rfl
    rw [flatMap_cons, pushedRows_append, pushedRows_markDistinct, ih hc (absurd · Bool.false_ne_true.symm),
      if_neg (by simp : ¬(b = c ∧ true = false))]
    rcases eq_or_ne b c with rfl | hne
    · rw [if_neg (by omega : ¬(b < b ∧ b < e)), if_pos rfl, if_pos ⟨rfl, rfl⟩, append_nil]
      rfl
    · rw [if_neg hne.symm, if_neg (fun h => hne h.1 : ¬(b = c ∧ false = false))]
      rfl
  | case5 c boundary rowIdx h => exact absurd hc h

theorem pushedRows_markBlocks (hsort : g.sort = true) {b e c : ℕ} (hbe : b < e) (he : e ≤ g.chunks.length) :
    MaskStep.pushedRows c (g.markBlocks true b e) = if b ≤ c ∧ c < e then g.blockStarts c else [] := by
  have hcnt : g.count ≠ 0 := by
    rw [← ChunkedRows.position_length]
    exact (position_pos (by omega) le_rfl).ne'
  rw [markBlocks, if_pos hsort, windowDeltaScanner, if_neg hcnt]
  rcases Nat.eq_zero_or_pos b with rfl | hb
  · have hrow : decide (0 < 0) = false → 1 = g.position 0 + 1 := fun _ => rfl
    rw [pushedRows_deltaLoop he hbe hrow, blockStarts]
    rcases eq_or_ne c 0 with rfl | hc
    · rw [if_pos ⟨rfl, rfl⟩, if_pos ⟨le_rfl, hbe⟩, if_pos rfl]
      rfl
    · rw [if_neg fun h => hc h.1, if_neg hc]
      exact if_congr (by omega) rfl rfl
  · have hrow : decide (0 < b) = false → 1 = g.position (b - 1) + 1 := by simp [hb]
    rw [pushedRows_deltaLoop he (by omega) hrow, if_neg (by simp [hb]), blockStarts]
    by_cases hin : b ≤ c ∧ c < e
    · rw [if_pos (by omega), if_pos hin, if_neg (by omega)]
    · rw [if_neg (by omega), if_neg hin]

omit [DecidableEq V] in
theorem pushedRows_initialise {clear : MaskId → List MaskStep}
    (hclear : ∀ m, ∀ a ∈ clear m, ∀ b, MaskStep.pushed b a = none) (b c : ℕ) :
    MaskStep.pushedRows c (g.initialise clear b) = [] := by
  rw [MaskStep.pushedRows, filterMap_eq_nil_iff]
  intro a ha
  obtain ⟨m, -, ha⟩ := mem_flatMap.1 ha
  rcases mem_append.1 ha with ha | ha
  · exact hclear m a ha c
  · split_ifs at ha
    · rw [mem_singleton.1 ha]
      rfl
    · exact nomatch ha

theorem pushedRows_task (hsort : g.sort = true) {clear : MaskId → List MaskStep}
    (hclear : ∀ m, ∀ a ∈ clear m, ∀ b, MaskStep.pushed b a = none) {b e c : ℕ} (hbe : b < e)
    (he : e ≤ g.chunks.length) :
    MaskStep.pushedRows c (g.initialise clear b ++ g.markBlocks true b e) =
      if b ≤ c ∧ c < e then g.blockStarts c else [] := by
  rw [pushedRows_append, pushedRows_initialise hclear, pushedRows_markBlocks hsort hbe he, nil_append]

theorem pushed_setEntryRangeInvalid {m : MaskId} {beginEntry beginIdx endEntry endIdx : ℕ} {a : MaskStep}
    (ha : a ∈ setEntryRangeInvalid m beginEntry beginIdx endEntry endIdx) (b : ℕ) : MaskStep.pushed b a = none := by
  rw [setEntryRangeInvalid] at ha
  by_cases heq : beginEntry = endEntry
  · rw [if_pos heq] at ha
    rw [mem_singleton.1 ha]
    rfl
  · rw [if_neg heq] at ha
    rcases mem_append.1 ha with ha | ha
    · rw [mem_pair] at ha
      rcases ha with rfl | rfl <;> rfl
    · obtain ⟨i, -, rfl⟩ := mem_map.1 ha
      rfl

theorem pushed_setRangeInvalid {count : ℕ} {m : MaskId} {beginEntry endEntry : ℕ} {a : MaskStep}
    (ha : a ∈ setRangeInvalid count m beginEntry endEntry) (b : ℕ) : MaskStep.pushed b a = none := by
  rw [setRangeInvalid] at ha
  by_cases hcnt : count = 0
  · rw [if_pos hcnt] at ha
    cases ha
  · rw [if_neg hcnt] at ha
    rcases mem_append.1 ha with ha | ha
    · obtain ⟨i, -, rfl⟩ := mem_map.1 ha
      rfl
    · by_cases hle : endEntry ≤ entryCount count - 1
      · rw [if_pos hle] at ha
        cases ha
      · rw [if_neg hle] at ha
        rw [mem_singleton.1 ha]
        rfl

theorem pushedRows_computeMasksForSmallRuns (hsort : g.sort = true) {b e c : ℕ} (hbe : b < e)
    (he : e ≤ g.chunks.length) :
    MaskStep.pushedRows c (g.computeMasksForSmallRuns true b e) = if b ≤ c ∧ c < e then g.blockStarts c else [] := by
  refine pushedRows_task hsort (fun m a ha b => ?_) hbe he
  exact pushed_setEntryRangeInvalid ha b

omit [DecidableEq V] in
/-- The blocks of a task have an entry of their own, so that it does not return early. -/
theorem FullChunks.entryCount_lt (hfull : g.FullChunks) {b e : ℕ} (hbe : b < e) (he : e ≤ g.chunks.length) :
    entryCount (b * standardVectorSize) < entryCount (min (e * standardVectorSize) g.count) := by
  have hb := hfull.position_eq (show b < g.chunks.length by omega)
  have hsucc := ChunkedRows.position_succ (g := g.toChunkedRows) (show b < g.chunks.length by omega)
  have hmono := ChunkedRows.position_mono (g := g.toChunkedRows) (show b + 1 ≤ e by omega)
  have hsz := ChunkedRows.chunkSize_pos (g := g.toChunkedRows) (show b < g.chunks.length by omega)
  rw [← hfull.position_eq_min (show 0 < e by omega) he, ← hb]
  rw [standardVectorSize] at hb
  simp only [entryCount]
  omega

theorem pushedRows_computeMasks (hsort : g.sort = true) (hfull : g.FullChunks) {b e c : ℕ} (hbe : b < e)
    (he : e ≤ g.chunks.length) :
    MaskStep.pushedRows c (g.computeMasks true b e) = if b ≤ c ∧ c < e then g.blockStarts c else [] := by
  rw [computeMasks, if_neg (not_le.2 (hfull.entryCount_lt hbe he))]
  refine pushedRows_task hsort (fun m a ha b => ?_) hbe he
  exact pushed_setRangeInvalid ha b

/-! ## All tasks -/

variable {b : ℕ}

omit [DecidableEq V] in
theorem BlockDivision.exists_task (d : g.BlockDivision) (hb : b < g.chunks.length) :
    ∃ j < d.parts, (d.cut j ≤ b ∧ b < d.cut (j + 1)) ∧ ∀ i < d.parts, d.cut i ≤ b ∧ b < d.cut (i + 1) → i = j := by
  obtain ⟨j, hj, hle, hn⟩ := BlockDivision.exists_step (f := d.cut) (d.cut_zero.le.trans (Nat.zero_le b)) (d.cut_last.symm ▸ hb)
  refine ⟨j, hj, ⟨hle, hn⟩, fun i hi hin => ?_⟩
  rcases lt_trichotomy i j with hlt | heq | hgt
  · exact absurd (BlockDivision.cut_mono (d := d) (show i + 1 ≤ j from hlt) (by omega)) (by omega)
  · exact heq
  · exact absurd (BlockDivision.cut_mono (d := d) (show j + 1 ≤ i from hgt) hi.le) (by omega)

/-- In whatever order the tasks of `ComputeMasksForSmallRuns` run, the cache of a block has what its task pushes. -/
theorem partitionBegins_smallRuns (hsort : g.sort = true) (d : g.BlockDivision) {order : List ℕ}
    (hord : order.Perm (range d.parts)) (hb : b < g.chunks.length) :
    (Masks.allocate.run (order.flatMap fun i =>
      g.computeMasksForSmallRuns true (d.cut i) (d.cut (i + 1)))).partitionBegins b = g.blockStarts b := by
  obtain ⟨j, hj, hin, huniq⟩ := d.exists_task hb
  have htsk : ∀ i < d.parts, MaskStep.pushedRows b (g.computeMasksForSmallRuns true (d.cut i) (d.cut (i + 1))) =
      if i = j then g.blockStarts b else [] := by
    intro i hi
    rw [pushedRows_computeMasksForSmallRuns hsort (d.cut_lt i hi) (BlockDivision.cut_le (d := d) hi)]
    refine if_congr ⟨huniq i hi, ?_⟩ rfl rfl
    rintro rfl
    exact hin
  -- Only one task of the list pushes to the cache of the block.
  have hall : ∀ l : List ℕ, (∀ i ∈ l, i < d.parts) → l.Nodup →
      MaskStep.pushedRows b (l.flatMap fun i => g.computeMasksForSmallRuns true (d.cut i) (d.cut (i + 1))) =
        if j ∈ l then g.blockStarts b else [] := by
    intro l
    induction l with
    | nil => exact fun _ _ => rfl
    | cons i l ih =>
      intro hl hnd
      rw [forall_mem_cons] at hl
      rw [nodup_cons] at hnd
      rw [flatMap_cons, pushedRows_append, htsk i hl.1, ih hl.2 hnd.2]
      rcases eq_or_ne i j with rfl | hne
      · rw [if_pos rfl, if_neg hnd.1, if_pos mem_cons_self, append_nil]
      · rw [if_neg hne, nil_append]
        exact if_congr (by rw [mem_cons, or_iff_right hne.symm]) rfl rfl
  rw [Masks.partitionBegins_run, hall order (fun i hi => mem_range.1 (hord.mem_iff.1 hi))
    (hord.nodup_iff.2 nodup_range), if_pos (hord.mem_iff.2 (mem_range.2 hj))]
  rfl

/-- So it has, however the writes of the tasks of `ComputeMasks` are interleaved. -/
theorem partitionBegins_computeMasks (hsort : g.sort = true) (hfull : g.FullChunks) (d : g.BlockDivision)
    {trace : List (ℕ × MaskStep)} (htrace : Interleaves d.parts
      (fun i => g.computeMasks true (d.cut i) (d.cut (i + 1))) trace) (hb : b < g.chunks.length) :
    (Masks.allocate.run (trace.map Prod.snd)).partitionBegins b = g.blockStarts b := by
  obtain ⟨j, hj, hin, huniq⟩ := d.exists_task hb
  have htsk : ∀ i < d.parts, MaskStep.pushedRows b (g.computeMasks true (d.cut i) (d.cut (i + 1))) =
      if d.cut i ≤ b ∧ b < d.cut (i + 1) then g.blockStarts b else [] := fun i hi =>
    pushedRows_computeMasks hsort hfull (d.cut_lt i hi) (BlockDivision.cut_le (d := d) hi)
  have hown : ∀ i < d.parts, ∀ a ∈ g.computeMasks true (d.cut i) (d.cut (i + 1)),
      (MaskStep.pushed b a).isSome = true → i = j := by
    intro i hi a ha hsome
    obtain ⟨row, hrow⟩ := Option.isSome_iff_exists.1 hsome
    refine huniq i hi ?_
    by_contra hnot
    have hmem := mem_filterMap.2 ⟨a, ha, hrow⟩
    rw [← MaskStep.pushedRows, htsk i hi, if_neg hnot] at hmem
    exact nomatch hmem
  have hpushed : ∀ l : List MaskStep,
      MaskStep.pushedRows b l = MaskStep.pushedRows b (l.filter fun a => (MaskStep.pushed b a).isSome) := by
    intro l
    rw [MaskStep.pushedRows, MaskStep.pushedRows, filterMap_filter]
    refine filterMap_congr fun a _ => ?_
    cases MaskStep.pushed b a <;> rfl
  rw [Masks.partitionBegins_run, hpushed, htrace.filter_eq hj hown, ← hpushed, htsk j hj, if_pos hin]
  rfl

/-! ## The cache of a block -/

/-- The cache has the rows of the block that start a partition, in order, but for the first row of the group. -/
def StartCache (g : MaskedRows V) (s : Masks) (b : ℕ) : Prop := (s.partitionBegins b).Pairwise (· < ·) ∧
    ∀ r, r ∈ s.partitionBegins b ↔
      r ≠ 0 ∧ g.position b ≤ r ∧ r < g.position b + g.chunkSize b ∧ g.DiffersFromPrevious g.partitionCount r

/-- Behind the first row of the block, no row starts a partition by a column before that of an earlier row. -/
def FoundInOrder (g : MaskedRows V) (b : ℕ) : Prop :=
  ∀ r r', g.position b < r → r < r' → r' < g.position b + g.chunkSize b →
    g.DiffersFromPrevious g.partitionCount r → ∀ c < g.partitionCount, g.value r' c ≠ g.value (r' - 1) c →
      ∃ c' ≤ c, g.value r c' ≠ g.value (r - 1) c'

theorem mem_callStarts {call : DeltaCall} (h : call.Adjacent) {r : ℕ} : r ∈ g.callStarts call ↔
      call.rowIdx ≤ r ∧ r < call.rowIdx + call.count ∧ g.DiffersFromPrevious g.partitionCount r := by
  rw [callStarts, mem_map]
  constructor
  · rintro ⟨i, hi, rfl⟩
    rw [mem_partition_iff h] at hi
    exact ⟨Nat.le_add_right _ _, Nat.add_lt_add_left hi.1 _, hi.2⟩
  · rintro ⟨hle, hlt, hd⟩
    obtain ⟨i, rfl⟩ := Nat.exists_eq_add_of_le hle
    exact ⟨i, (mem_partition_iff h).2 ⟨by omega, hd⟩, rfl⟩

/-- The rows of a call are found in order under the condition for its rows. -/
theorem pairwise_callStarts_iff {call : DeltaCall} (h : call.Adjacent) :
    (g.callStarts call).Pairwise (· < ·) ↔ ∀ r r', call.rowIdx ≤ r → r < r' → r' < call.rowIdx + call.count →
        g.DiffersFromPrevious g.partitionCount r → ∀ c < g.partitionCount, g.value r' c ≠ g.value (r' - 1) c →
          ∃ c' ≤ c, g.value r c' ≠ g.value (r - 1) c' := by
  rw [callStarts, pairwise_map]
  simp only [Nat.add_lt_add_iff_left]
  rw [pairwise_distinctFrom_iff pairwise_lt_range pairwise_lt_range]
  simp only [mem_range]
  constructor
  · rintro hord r r' hr hlt hr' ⟨c₁, hc₁, hd⟩ c hc hne
    obtain ⟨i, rfl⟩ := Nat.exists_eq_add_of_le hr
    obtain ⟨j, rfl⟩ := Nat.exists_eq_add_of_le (hr.trans hlt.le)
    have hi : i < call.count := by omega
    have hj : j < call.count := by omega
    obtain ⟨c', hc', hle, hd'⟩ := hord i hi j hj (by omega) ⟨c₁, hc₁, (callDiffers_iff h hi).2 hd⟩ c hc
      ((callDiffers_iff h hj).2 hne)
    exact ⟨c', hle, (callDiffers_iff h hi).1 hd'⟩
  · rintro hord i hi j hj hij ⟨c₁, hc₁, hd⟩ c hc hne
    obtain ⟨c', hle, hd'⟩ := hord (call.rowIdx + i) (call.rowIdx + j) (by omega) (by omega) (by omega)
      ⟨c₁, hc₁, (callDiffers_iff h hi).1 hd⟩ c hc ((callDiffers_iff h hj).1 hne)
    exact ⟨c', hle.trans_lt hc, hle, (callDiffers_iff h hi).2 hd'⟩

omit [DecidableEq V] in
theorem adjacent_withinCall (b : ℕ) : (g.withinCall b).Adjacent := adjacent_within

omit [DecidableEq V] in
theorem adjacent_borderCall (hb : b + 1 < g.chunks.length) : (g.borderCall (b + 1)).Adjacent := adjacent_boundary hb

theorem mem_blockStarts (hb : b < g.chunks.length) {r : ℕ} : r ∈ g.blockStarts b ↔
      r ≠ 0 ∧ g.position b ≤ r ∧ r < g.position b + g.chunkSize b ∧ g.DiffersFromPrevious g.partitionCount r := by
  have hsz := ChunkedRows.chunkSize_pos hb
  have hwith : r ∈ g.callStarts (g.withinCall b) ↔ g.position b < r ∧ r < g.position b + g.chunkSize b ∧
      g.DiffersFromPrevious g.partitionCount r := by
    rw [mem_callStarts (adjacent_withinCall b)]
    refine and_congr_right fun _ => and_congr_left fun _ => ?_
    change r < g.position b + 1 + (g.chunkSize b - 1) ↔ _
    rw [Nat.add_assoc, Nat.add_sub_cancel' hsz]
  rw [blockStarts, mem_append, hwith]
  cases b with
  | zero =>
    rw [if_pos rfl, ChunkedRows.position_zero, or_iff_right not_mem_nil]
    constructor
    · exact fun ⟨h₁, h₂⟩ => ⟨h₁.ne', Nat.zero_le r, h₂⟩
    · exact fun ⟨h₁, _, h₂⟩ => ⟨Nat.pos_of_ne_zero h₁, h₂⟩
  | succ b =>
    have hpos := position_pos (g := g) (Nat.succ_pos b) hb.le
    rw [if_neg (Nat.succ_ne_zero b), mem_callStarts (adjacent_borderCall hb)]
    change (g.position (b + 1) ≤ r ∧ r < g.position (b + 1) + 1 ∧ _) ∨ _ ↔ _
    change 0 < g.position (b + 1) at hpos
    constructor
    · rintro (⟨h₁, h₂, hd⟩ | ⟨h₁, h₂, hd⟩)
      · exact ⟨by omega, h₁, by omega, hd⟩
      · exact ⟨by omega, h₁.le, h₂, hd⟩
    · rintro ⟨-, h₁, h₂, hd⟩
      rcases h₁.eq_or_lt with heq | hlt
      · exact .inl ⟨h₁, by omega, hd⟩
      · exact .inr ⟨hlt, h₂, hd⟩

theorem pairwise_blockStarts_iff (hb : b < g.chunks.length) :
    (g.blockStarts b).Pairwise (· < ·) ↔ g.FoundInOrder b := by
  have hsz := ChunkedRows.chunkSize_pos hb
  have hwith : (g.callStarts (g.withinCall b)).Pairwise (· < ·) ↔ g.FoundInOrder b := by
    rw [pairwise_callStarts_iff (adjacent_withinCall b), FoundInOrder]
    refine forall₂_congr fun r r' => ?_
    change (g.position b + 1 ≤ r → _ → r' < g.position b + 1 + (g.chunkSize b - 1) → _) ↔ _
    rw [Nat.add_assoc, Nat.add_sub_cancel' hsz]
    rfl
  rw [blockStarts]
  cases b with
  | zero => rw [if_pos rfl, nil_append, hwith]
  | succ b =>
    have hborder : ∀ r ∈ g.callStarts (g.borderCall (b + 1)), r = g.position (b + 1) := by
      intro r hr
      obtain ⟨h₁, h₂, -⟩ := (mem_callStarts (adjacent_borderCall hb)).1 hr
      exact le_antisymm (Nat.lt_succ_iff.1 h₂) h₁
    have hone : (g.callStarts (g.borderCall (b + 1))).Pairwise (· < ·) := by
      rw [pairwise_callStarts_iff (adjacent_borderCall hb)]
      intro r r' h₁ h₂ h₃
      change r' < g.position (b + 1) + 1 at h₃
      change g.position (b + 1) ≤ r at h₁
      omega
    rw [if_neg (Nat.succ_ne_zero b), pairwise_append, hwith]
    refine ⟨fun h => h.2.1, fun h => ⟨hone, h, fun r hr r' hr' => ?_⟩⟩
    rw [hborder r hr]
    exact ((mem_callStarts (adjacent_withinCall _)).1 hr').1

theorem startCache_of_eq {s : Masks} (hb : b < g.chunks.length)
    (hs : s.partitionBegins b = g.blockStarts b) : g.StartCache s b ↔ g.FoundInOrder b := by
  rw [StartCache, hs, pairwise_blockStarts_iff hb]
  exact and_iff_left fun r => mem_blockStarts hb

/-- The cache of a block has the rows that start a partition, in order, if and only if `DistinctFrom` finds them in
    order. -/
theorem startCache_iff (g : MaskedRows V) (hsort : g.sort = true) (d : g.BlockDivision) {b : ℕ}
    (hb : b < g.chunks.length) :
    (∀ order : List ℕ, order.Perm (List.range d.parts) → (g.StartCache (Masks.allocate.run (order.flatMap fun i =>
        g.computeMasksForSmallRuns true (d.cut i) (d.cut (i + 1)))) b ↔ g.FoundInOrder b)) ∧
    (g.FullChunks → ∀ trace, Interleaves d.parts (fun i => g.computeMasks true (d.cut i) (d.cut (i + 1))) trace →
      (g.StartCache (Masks.allocate.run (trace.map Prod.snd)) b ↔ g.FoundInOrder b)) :=
  ⟨fun _ hord => startCache_of_eq hb (partitionBegins_smallRuns hsort d hord hb),
    fun hfull _ htrace => startCache_of_eq hb (partitionBegins_computeMasks hsort hfull d htrace hb)⟩

omit [DecidableEq V] in
theorem foundInOrder_of_one_column (hone : g.partitionCount = 1) (b : ℕ) : g.FoundInOrder b := by
  rintro r r' - - - ⟨c₁, hc₁, hd⟩ c hc -
  rw [hone, Nat.lt_one_iff] at hc₁ hc
  subst hc₁ hc
  exact ⟨0, le_rfl, hd⟩

/-- Three rows: the second differs in the second `PARTITION BY` column, the third in the first one. -/
def twoColumns : MaskedRows ℕ where
  chunks := [3]
  chunks_pos := by decide
  value r c := if c = 0 then r / 2 else r % 2
  partitionCount := 2
  orderColumns := [2]
  partitionCount_le := by decide
  sort := true

/-- The third row is pushed before the second one. -/
theorem startCache_out_of_order :
    (Masks.allocate.run (twoColumns.computeMasks true 0 1)).partitionBegins 0 = [2, 1] ∧
      ¬twoColumns.StartCache (Masks.allocate.run (twoColumns.computeMasks true 0 1)) 0 := by
  have hbegs : (Masks.allocate.run (twoColumns.computeMasks true 0 1)).partitionBegins 0 = [2, 1] := by
    have hfull : twoColumns.FullChunks := by
      refine ⟨fun c hc => ?_, fun c hc => ?_⟩
      · exact absurd hc (by change ¬c + 1 < 1; omega)
      · obtain rfl : c = 0 := Nat.lt_one_iff.1 hc
        decide
    rw [Masks.partitionBegins_run, pushedRows_computeMasks rfl hfull Nat.zero_lt_one le_rfl]
    decide
  refine ⟨hbegs, fun h => ?_⟩
  have := h.1
  rw [hbegs] at this
  exact absurd this (by decide)

/-- The two rows of different partitions, in a chunk each. -/
theorem startCache_two_rows : twoRows.StartCache (Masks.allocate.run ([1, 0].flatMap fun i =>
      twoRows.computeMasksForSmallRuns true i (i + 1))) 1 := by
  refine ((startCache_iff twoRows rfl ⟨2, id, rfl, by decide, rfl⟩ (by decide)).1 [1, 0]
    (List.Perm.swap 0 1 [])).2 ?_
  exact foundInOrder_of_one_column rfl 1

end MaskedRows

end WfOpt

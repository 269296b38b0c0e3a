import WfOpt.Window.FillChoice

/-!
# Where fill() reads the bounds

When nothing is found for a row, the index is advanced to the last row of the partition, and the end of the partition
is read again at that index (`FillColumns.Chunk.skip`). If the partition goes on behind the chunk, that is behind the
end of the columns (`FillColumns.Chunk.readsInside_iff`).
-/

namespace WfOpt

open List

namespace FillSearch

variable {f : FillSearch}

/-- Scanning backwards finds nothing if no valid position can be reached. -/
theorem scanBackwards_eq_none {own : ℕ} : f.scanBackwards own = none ↔
    ∀ n, f.lo ≤ n → n < own → (∀ m, n ≤ m → m < own → f.order m = true) → f.value n = false := by
  induction own with
  | zero => exact iff_of_true rfl fun n _ hn => absurd hn (Nat.not_lt_zero n)
  | succ k ih =>
    rw [scanBackwards]
    split_ifs with hlo hord hval
    · refine iff_of_false (by simp) fun h => ?_
      have hfls := h k (Nat.le_of_lt_succ hlo) k.lt_succ_self fun m hm hm' => by
        rwa [Nat.le_antisymm (Nat.le_of_lt_succ hm') hm]
      exact Bool.false_ne_true (hfls.symm.trans hval)
    · rw [ih]
      refine ⟨fun h n hn hn' hrch => ?_, fun h n hn hn' hrch => ?_⟩
      · rcases Nat.lt_or_eq_of_le (Nat.le_of_lt_succ hn') with hlt | rfl
        · exact h n hn hlt fun m hm hm' => hrch m hm (hm'.trans k.lt_succ_self)
        · exact Bool.eq_false_iff.2 hval
      · refine h n hn (hn'.trans k.lt_succ_self) fun m hm hm' => ?_
        rcases Nat.lt_or_eq_of_le (Nat.le_of_lt_succ hm') with hlt | rfl
        · exact hrch m hm hlt
        · exact hord
    · refine iff_of_true rfl fun n _ hn hrch => absurd (hrch k (Nat.le_of_lt_succ hn) k.lt_succ_self) hord
    · refine iff_of_true rfl fun n hn hn' => ?_
      exact absurd (hn.trans_lt hn') hlo

theorem scanFrom_eq_none {left n : ℕ} : f.scanFrom left n = none ↔
    ∀ k, n ≤ k → k < n + left → (∀ m, n ≤ m → m ≤ k → f.order m = true) → f.value k = false := by
  induction left generalizing n with
  | zero => exact iff_of_true rfl fun k hk hk' => absurd hk (Nat.not_le.2 hk')
  | succ left ih =>
    have hnx : n + 1 + left = n + (left + 1) := by omega
    rw [scanFrom]
    split_ifs with hord hval
    · refine iff_of_false (by simp) fun h => ?_
      have hfls := h n le_rfl (by omega) fun m hm hm' => by rwa [Nat.le_antisymm hm' hm]
      exact Bool.false_ne_true (hfls.symm.trans hval)
    · rw [ih, hnx]
      refine ⟨fun h k hk hk' hrch => ?_, fun h k hk hk' hrch => ?_⟩
      · rcases Nat.lt_or_eq_of_le hk with hlt | rfl
        · exact h k hlt hk' fun m hm hm' => hrch m (Nat.le_of_succ_le hm) hm'
        · exact Bool.eq_false_iff.2 hval
      · refine h k (Nat.le_of_succ_le hk) hk' fun m hm hm' => ?_
        rcases Nat.lt_or_eq_of_le hm with hlt | rfl
        · exact hrch m hlt hm'
        · exact hord
    · exact iff_of_true rfl fun k hk _ hrch => absurd (hrch n le_rfl hk) hord

/-- No other position with a usable value can be reached from a position over usable sort values. -/
def NothingReached (f : FillSearch) (own : ℕ) : Prop :=
  (∀ n, f.lo ≤ n → n < own → (∀ m, n ≤ m → m < own → f.order m = true) → f.value n = false) ∧
    ∀ n, own < n → n < f.stop → (∀ m, own < m → m ≤ n → f.order m = true) → f.value n = false

theorem previous_eq_none {own : ℕ} : f.previous own = none ↔ f.NothingReached own := by
  rw [previous, Option.or_eq_none_iff, scanBackwards_eq_none, scanForwards, scanFrom_eq_none, NothingReached]
  refine and_congr_right fun _ => forall_congr' fun n => forall_congr' fun hn => ?_
  rcases Nat.le_total (own + 1) f.stop with hle | hge
  · rw [Nat.add_sub_cancel' hle]
    rfl
  · rw [Nat.sub_eq_zero_of_le hge, Nat.add_zero]
    exact iff_of_true (fun hlt => absurd hn (Nat.not_le.2 hlt)) fun hlt => absurd (hlt.trans_le hge) (Nat.not_lt.2 hn)

end FillSearch

namespace FillColumns

variable {V K : Type*} {T : FillColumns V K}

/-! ## Rows that are skipped from -/

/-- A missing row with a usable value of the column that the rows are sorted by. -/
def lacksIn (T : FillColumns V K) : (secondary : Option (SecondarySort K)) → ℕ → Bool
  | none, r => T.lacks r
  | some sort, r => (T.cell r).isNone && fillValueFunction sort.orderFinite sort.orderCell r

/-- There is no valid value: no row of the partition is usable, or in the secondary order, none can be reached. -/
def NoValid (T : FillColumns V K) : (secondary : Option (SecondarySort K)) → ℕ → Prop
  | none, r => ∀ s, T.InPartition r s → T.usable s = false
  | some sort, r => (Chunk.secondarySearch (T := T) sort (T.bounds r)).NothingReached
      (Chunk.ownRow sort (T.bounds r) r)

/-- The rest of the partition is skipped. -/
def Skips (T : FillColumns V K) (secondary : Option (SecondarySort K)) (r : ℕ) : Prop :=
  T.lacksIn secondary r = true ∧ T.NoValid secondary r

namespace Chunk

variable {chunk : T.Chunk} {secondary : Option (SecondarySort K)} {s t : Filling V}

/-- What a step reads, and the row it goes on with. -/
inductive ReadStep (chunk : T.Chunk) (secondary : Option (SecondarySort K)) (s t : Filling V) : Prop
  | next (reads : List ℕ) (h : ¬T.Skips secondary (chunk.rowIdx + s.i)) (hi : t.i = s.i + 1)
      (hreads : t.reads = s.reads ++ reads) (hrow : ∀ j ∈ reads, j = s.i)
  | skip (reads : List ℕ) (i : ℕ) (h : T.Skips secondary (chunk.rowIdx + s.i)) (hle : s.i ≤ i)
      (hend : chunk.rowIdx + i + 1 = (T.bounds (chunk.rowIdx + s.i)).partitionEnd) (hi : t.i = i + 1)
      (hreads : t.reads = s.reads ++ reads ++ [i]) (hrow : ∀ j ∈ reads, j = s.i)

theorem ReadStep.subset (h : chunk.ReadStep secondary s t) : s.reads ⊆ t.reads := by
  cases h with
  | next reads _ _ hreads _ =>
    rw [hreads]
    exact subset_append_left _ _
  | skip reads i _ _ _ _ hreads _ =>
    rw [hreads, append_assoc]
    exact subset_append_left _ _

variable {step : Filling V → Filling V} {Inv : Filling V → Prop}

theorem subset_loop
    (hstep : ∀ s, Inv s → s.i < chunk.count → Inv (step s) ∧ chunk.ReadStep secondary s (step s)) {fuel : ℕ}
    (h : Inv s) : s.reads ⊆ (chunk.loop step fuel s).reads := by
  induction fuel generalizing s with
  | zero => exact List.Subset.refl _
  | succ fuel ih =>
    rw [loop]
    split_ifs with hlt
    · obtain ⟨hinv, hrd⟩ := hstep s h hlt
      exact fun j hj => ih hinv (hrd.subset hj)
    · exact List.Subset.refl _

section

variable (hstep : ∀ s, Inv s → s.i < chunk.count → Inv (step s) ∧ chunk.ReadStep secondary s (step s))

include hstep

/-- If every partition that is skipped from ends in the chunk, all reads are inside. -/
theorem reads_loop_lt
    (hends : ∀ i < chunk.count, T.Skips secondary (chunk.rowIdx + i) →
      (T.bounds (chunk.rowIdx + i)).partitionEnd ≤ chunk.rowIdx + chunk.count) {fuel : ℕ} (h : Inv s)
    (hreads : ∀ j ∈ s.reads, j < chunk.count) : ∀ j ∈ (chunk.loop step fuel s).reads, j < chunk.count := by
  induction fuel generalizing s with
  | zero => exact hreads
  | succ fuel ih =>
    rw [loop]
    split_ifs with hlt
    · obtain ⟨hinv, hrd⟩ := hstep s h hlt
      refine ih hinv ?_
      cases hrd with
      | next reads _ _ heq hrow =>
        rw [heq, forall_mem_append]
        exact ⟨hreads, fun j hj => hrow j hj ▸ hlt⟩
      | skip reads i hskips _ hend _ heq hrow =>
        have hle := hends s.i hlt hskips
        rw [heq, forall_mem_append, forall_mem_append, forall_mem_singleton]
        exact ⟨⟨hreads, fun j hj => hrow j hj ▸ hlt⟩, by omega⟩
    · exact hreads

theorem exists_read_loop {k : ℕ}
    (hk : k < chunk.count) (hskips : T.Skips secondary (chunk.rowIdx + k))
    (hend : chunk.rowIdx + chunk.count < (T.bounds (chunk.rowIdx + k)).partitionEnd) {fuel : ℕ} (h : Inv s)
    (hle : s.i ≤ k) (hfuel : chunk.count ≤ s.i + fuel) :
    ∃ j ∈ (chunk.loop step fuel s).reads, chunk.count ≤ j := by
  induction fuel generalizing s with
  | zero => exact absurd hk (Nat.not_lt.2 (hfuel.trans hle))
  | succ fuel ih =>
    have hlt : s.i < chunk.count := hle.trans_lt hk
    rw [loop, if_pos hlt]
    obtain ⟨hinv, hrd⟩ := hstep s h hlt
    cases hrd with
    | next reads hnot hi _ _ =>
      have hne : s.i ≠ k := fun heq => hnot (heq ▸ hskips)
      exact ih hinv (by omega) (by omega)
    | skip reads i _ hfrom hend' hi hreads _ =>
      rcases Nat.lt_or_ge i chunk.count with hinsi | hbhd
      · -- A partition that ends in the chunk is not that of the row.
        have hfar : i < k := by
          by_contra hnear
          have hin : T.InPartition (chunk.rowIdx + s.i) (chunk.rowIdx + k) :=
            ⟨(inPartition_self (chunk.row_lt hlt)).1.trans (by omega), by omega⟩
          rw [hin.bounds_eq (chunk.row_lt hlt)] at hend
          omega
        exact ih hinv (by omega) (by omega)
      · refine ⟨i, subset_loop hstep hinv ?_, hbhd⟩
        rw [hreads]
        exact mem_append_right _ mem_cons_self

end

/-! ## Both orders -/

theorem enter_reads (chunk : T.Chunk) (s : Filling V) : (chunk.enter s).reads = s.reads ++ [s.i] := by
  rw [enter]
  split_ifs
  · rfl
  · rfl

/-- In the order of the partition. -/
theorem FillInv.readStep (h : chunk.FillInv s) (hi : s.i < chunk.count) :
    chunk.ReadStep none s (chunk.fillRow s) := by
  obtain ⟨hinv, hidx, -, hpart⟩ := h.enter hi
  have hr := chunk.row_lt hi
  have hreads := enter_reads chunk s
  rcases h.fillRow_cases hi with ⟨hlacks, heq⟩ | ⟨hlacks, heq⟩
  · rw [heq]
    refine .next [s.i] (fun hskips => ?_) (congrArg (· + 1) hidx) hreads fun j hj => mem_singleton.1 hj
    exact Bool.false_ne_true (hlacks.symm.trans hskips.1)
  · rw [heq]
    rw [← hidx] at hi hr hpart hlacks
    rcases hinv.fillMissing_cases hi hlacks hpart with ⟨_, hno, heq'⟩ | ⟨prev, hkept, heq'⟩
    · obtain ⟨i, hle, hend, hi', hreads', -⟩ := skip_spec hi (hinv.rowIdx_eq hi)
      rw [hidx] at hle hend hno hlacks hr
      rw [heq']
      refine .skip [s.i] i ⟨hlacks, (nil_iff hr).1 hno⟩ hle hend hi' ?_ fun j hj => mem_singleton.1 hj
      rw [hreads', hreads]
    · rw [heq']
      refine .next [s.i] (fun hskips => ?_) (congrArg (· + 1) hidx) hreads fun j hj => mem_singleton.1 hj
      rw [hidx] at hkept hr
      obtain ⟨hbef, hbhd⟩ := (nil_iff hr).2 hskips.2
      cases hkept with
      | before rest h => exact nomatch hbef.symm.trans h
      | behind rest _ h' => exact nomatch hbhd.symm.trans h'
      | lastButOne last rest h _ => exact nomatch hbef.symm.trans h

/-- The row and the index go together, as long as the index is in the chunk. -/
def Aligned (chunk : T.Chunk) (s : Filling V) : Prop := s.i < chunk.count → s.rowIdx = chunk.rowIdx + s.i

theorem Aligned.next (h : chunk.Aligned s) (hi : s.i < chunk.count) (hrow : t.rowIdx = s.rowIdx)
    (hidx : t.i = s.i) : chunk.Aligned (FillColumns.Chunk.next t) := by
  intro _
  have heq := h hi
  change t.rowIdx + 1 = chunk.rowIdx + (t.i + 1)
  omega

section

variable (sort : SecondarySort K) (h : chunk.Aligned s) (hi : s.i < chunk.count)

include h hi

theorem Aligned.readStep_fillMissingSorted
    (hlacks : T.lacksIn (some sort) (chunk.rowIdx + s.i) = true) {t : Filling V} (hrow : t.rowIdx = s.rowIdx)
    (hidx : t.i = s.i) (hreads : t.reads = s.reads ++ [s.i]) :
    chunk.Aligned (chunk.fillMissingSorted sort t) ∧
      chunk.ReadStep (some sort) s (chunk.fillMissingSorted sort t) := by
  rw [fillMissingSorted, hidx, hrow, h hi, chunk.bounds_eq _ hi]
  cases hprev : (secondarySearch (T := T) sort (T.bounds (chunk.rowIdx + s.i))).previous
      (ownRow sort (T.bounds (chunk.rowIdx + s.i)) (chunk.rowIdx + s.i)) with
  | none =>
    rw [← hidx] at hi
    obtain ⟨i, hle, hend, hi', hreads', hrow'⟩ := skip_spec hi (by rw [hrow, hidx]; exact h (hidx ▸ hi))
    rw [hidx] at hle hend
    refine ⟨fun hlt => ?_, .skip [s.i] i ⟨hlacks, FillSearch.previous_eq_none.1 hprev⟩ hle hend hi' ?_
      fun j hj => mem_singleton.1 hj⟩
    · rw [hi'] at hlt ⊢
      exact hrow' hlt
    · rw [hreads', hreads]
  | some prev =>
    refine ⟨h.next hi hrow hidx, .next [s.i] (fun hskips => ?_) (congrArg (· + 1) hidx) hreads
      fun j hj => mem_singleton.1 hj⟩
    exact nomatch hprev.symm.trans (FillSearch.previous_eq_none.2 hskips.2)

theorem Aligned.readStep :
    chunk.Aligned (chunk.fillRowSorted sort s) ∧ chunk.ReadStep (some sort) s (chunk.fillRowSorted sort s) := by
  rw [fillRowSorted, chunk.validity_eq _ hi]
  by_cases hvld : (T.cell (chunk.rowIdx + s.i)).isSome = true
  · rw [if_pos hvld]
    refine ⟨h.next hi rfl rfl, .next [] (fun hskips => ?_) rfl (append_nil _).symm fun j hj => nomatch hj⟩
    have hno := (Bool.and_eq_true_iff.1 hskips.1).1
    rw [← Option.not_isSome, hvld] at hno
    exact Bool.false_ne_true hno
  · dsimp only
    split_ifs with hord
    · refine h.readStep_fillMissingSorted sort hi (Bool.and_eq_true_iff.2 ⟨?_, ?_⟩) rfl rfl rfl
      · rwa [← Option.not_isSome, Bool.not_eq_true', ← Bool.not_eq_true]
      · rwa [← h hi]
    · refine ⟨h.next hi rfl rfl, .next [s.i] (fun hskips => ?_) rfl rfl fun j hj => mem_singleton.1 hj⟩
      have hord' := (Bool.and_eq_true_iff.1 hskips.1).2
      rw [← h hi] at hord'
      exact hord hord'

end

theorem reads_loop_iff (hstep : ∀ s, Inv s → s.i < chunk.count → Inv (step s) ∧ chunk.ReadStep secondary s (step s))
    {result : ℕ → Filled V} (h : Inv (chunk.start result)) :
    (∀ j ∈ (chunk.loop step chunk.count (chunk.start result)).reads, j < chunk.count) ↔
      ∀ i < chunk.count, T.Skips secondary (chunk.rowIdx + i) →
        (T.bounds (chunk.rowIdx + i)).partitionEnd ≤ chunk.rowIdx + chunk.count := by
  refine ⟨fun hreads i hi hskips => ?_, fun hends => reads_loop_lt hstep hends h fun j hj => nomatch hj⟩
  by_contra hend
  obtain ⟨j, hj, hbhd⟩ := exists_read_loop hstep hi hskips (Nat.lt_of_not_le hend) h (Nat.zero_le i)
    (Nat.le_add_left _ _)
  exact Nat.not_lt.2 hbhd (hreads j hj)

theorem not_reads_of_skips (hmask : chunk.validity.validityMask.isNone = false) {i : ℕ} (hi : i < chunk.count)
    (hskips : T.Skips none (chunk.rowIdx + i))
    (hend : chunk.rowIdx + chunk.count < (T.bounds (chunk.rowIdx + i)).partitionEnd) (result : ℕ → Filled V) :
    ¬∀ j ∈ (chunk.evaluateInternal none result).reads, j < chunk.count := by
  unfold evaluateInternal
  rw [if_neg (Bool.eq_false_iff.1 hmask), reads_loop_iff (fun s hs hlt => ⟨(hs.fillRow hlt).1, hs.readStep hlt⟩)
    (FillInv.start chunk result)]
  exact fun h => Nat.not_le.2 hend (h i hi hskips)

end Chunk

/-- The cells of 3000 rows without a value, in two chunks. -/
def noCells : List (List (Option ℕ)) := [replicate 2048 none, replicate 952 none]

theorem noCells_flatten : noCells.flatten = replicate 3000 none := by
  rw [noCells, flatten_cons, flatten_cons, flatten_nil, append_nil, replicate_append_replicate]

theorem noCells_length : noCells.flatten.length = 3000 := by rw [noCells_flatten, length_replicate]

/-- A partition of these rows. -/
def nullCells : FillColumns ℕ ℕ where
  chunks := noCells
  valueFinite _ := true
  orderCell := some
  orderFinite _ := true
  bounds _ := ⟨0, 3000, 0, 3000⟩
  partitionBegin_le r _ := Nat.zero_le r
  lt_partitionEnd _ hr := hr.trans_eq noCells_length
  partitionEnd_le _ _ := noCells_length.ge
  bounds_eq _ _ _ _ _ := rfl
  valid_iff _ _ s := (and_iff_left (rfl : (some s).isSome = true)).symm
  order_between _ _ _ _ _ _ _ _ _ _ _ := rfl

theorem nullCells_cell (row : ℕ) : nullCells.cell row = none := by
  have hcell : nullCells.cell row = noCells.flatten.getD row none := rfl
  rw [hcell, noCells_flatten, getD_eq_getElem?_getD, getElem?_replicate]
  split_ifs
  · rfl
  · rfl

/-- The first chunk of it. -/
def nullChunk : nullCells.Chunk where
  rowIdx := 0
  count := 2048
  bounds _ := ⟨0, 3000, 0, 3000⟩
  validity := ⟨some fun _ => 0⟩
  le_count := by
    have hle : 0 + 2048 ≤ 3000 := by omega
    exact hle.trans_eq noCells_length.symm
  bounds_eq _ _ := rfl
  validity_eq i _ := by
    rw [nullCells_cell]
    exact BitVec.getLsbD_zero

end FillColumns

end WfOpt

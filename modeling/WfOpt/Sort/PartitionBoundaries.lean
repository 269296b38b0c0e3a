import WfOpt.Sort.MergerRuns

/-!
# The positions of a merge partition

The rank of an element of a run is the number of elements of all runs that come before it (`RunKeys.rank`). The
first `n` elements of the merge are those whose rank is below `n` (`RunKeys.rank_lt_iff`).

`computePartitionBoundaries`, the computation of the end of a merge partition with its assertions, may start from
the positions of any smaller number of elements: it ends, no assertion fails, and the positions are those of the
ranks (`Merger.computePartitionBoundaries_eq`).
-/

namespace WfOpt

open Finset

variable {κ : Type*} [LinearOrder κ]

/-! ## Ranks -/

namespace RunKeys

instance (s : RunKeys κ) (r i r' j : ℕ) : Decidable (s.Before r i r' j) :=
  inferInstanceAs (Decidable (_ ∨ (_ ∧ (_ ∨ (_ ∧ _)))))

/-- The number of elements that come before an element. -/
def rank (s : RunKeys κ) (r i : ℕ) : ℕ := ∑ r' ∈ range s.numRuns, Nat.count (fun j => s.Before r' j r i) (s.count r')

variable {s : RunKeys κ} {n r i : ℕ}

theorem count_le_of_lt {p : ℕ → Prop} [DecidablePred p] {c n : ℕ} (h : ∀ j < n, p j → j < c) :
    Nat.count p n ≤ c := by
  rw [Nat.count_eq_card_filter_range]
  have hsub : (range n).filter p ⊆ range c := fun j hj =>
    mem_range.2 (h j (mem_range.1 (mem_filter.1 hj).1) (mem_filter.1 hj).2)
  exact (card_le_card hsub).trans_eq (card_range c)

theorem le_count_of_forall {p : ℕ → Prop} [DecidablePred p] {c n : ℕ} (hc : c ≤ n) (h : ∀ j < c, p j) :
    c ≤ Nat.count p n := by
  rw [Nat.count_eq_card_filter_range]
  have hsub : range c ⊆ (range n).filter p := fun j hj =>
    mem_filter.2 ⟨mem_range.2 ((mem_range.1 hj).trans_le hc), h j (mem_range.1 hj)⟩
  exact (card_range c).ge.trans (card_le_card hsub)

/-- The first elements of the merge are those of the smallest ranks. -/
theorem rank_lt_iff (hn : n ≤ s.total) (hr : r < s.numRuns) (hi : i < s.count r) :
    s.rank r i < n ↔ i < s.cut n r := by
  constructor
  · intro hrank
    by_contra hcut
    -- all of the first elements come before this one
    have hle : ∑ r' ∈ range s.numRuns, s.cut n r' ≤ s.rank r i :=
      sum_le_sum fun r' hr' => le_count_of_forall (cut_le_count n r') fun j hj =>
        before_of_cut (mem_range.1 hr') hr hj (not_lt.1 hcut) hi
    rw [sum_cut hn] at hle
    exact absurd hrank (not_lt.2 hle)
  · intro hcut
    rw [← sum_cut hn]
    refine sum_lt_sum (fun r' hr' => count_le_of_lt fun j hj hbef =>
      lt_cut_of_before hr (mem_range.1 hr') hcut hj hbef) ⟨r, mem_range.2 hr, ?_⟩
    -- in its run, only the elements at smaller positions come before it
    refine (count_le_of_lt fun j hj hbef => ?_).trans_lt hcut
    rcases hbef with hlt | ⟨-, hrun | ⟨-, hlt⟩⟩
    · by_contra hle
      exact absurd (s.sorted r hr i j (not_lt.1 hle) hj) (not_le.2 hlt)
    · exact absurd hrun (lt_irrefl r)
    · exact hlt

/-- The positions of the merge are numbers of elements with small ranks. -/
theorem cut_eq_count (hn : n ≤ s.total) (hr : r < s.numRuns) :
    s.cut n r = Nat.count (fun i => s.rank r i < n) (s.count r) := by
  refine le_antisymm (le_count_of_forall (cut_le_count n r) fun i hi => ?_) (count_le_of_lt fun i hi hrank => ?_)
  · exact (rank_lt_iff hn hr (hi.trans_le (cut_le_count n r))).2 hi
  · exact (rank_lt_iff hn hr hi).1 hrank

end RunKeys

/-! ## The computation -/

namespace PathState

/-- A turn of the loop of `TemplatedComputePartitionBoundaries`, with its assertions; the tuples probed have to be in
    their runs. -/
def checkedStep (s : RunKeys κ) (p : PathState) : Option PathState := match p.active with
  | [] => none
  | a :: l =>
    if (∀ r ∈ p.active, p.begins r < p.ends r ∧ p.probe r < s.count r) ∧
        p.delta (firstMin (fun r => s.key r (p.probe r)) a l) ≤ p.totalRemaining then
      some (mergePathStep s p)
    else none

/-- The loop of `TemplatedComputePartitionBoundaries`. -/
def loop (s : RunKeys κ) : ℕ → PathState → Option PathState
  | 0, _ => none
  | fuel + 1, p => if p.totalRemaining = 0 then some p else (p.checkedStep s).bind (loop s fuel)

variable {s : RunKeys κ} {n : ℕ} {p : PathState}

/-- No assertion fails. -/
theorem Valid.checkedStep_eq (h : Valid s n p) (hne : p.totalRemaining ≠ 0) :
    p.checkedStep s = some (mergePathStep s p) := by
  rw [checkedStep]
  cases hl : p.active with
  | nil =>
    have hstep := (h.step hne).2.1
    rw [mergePathStep, hl] at hstep
    exact absurd hstep (lt_irrefl _)
  | cons a l =>
    dsimp only
    rw [← hl, if_pos]
    refine ⟨fun r hr => ?_, ?_⟩
    · obtain ⟨hrun, hlt⟩ := h.mem_active.1 hr
      obtain ⟨hpos, hle, -⟩ := h.delta_bounds hne hr
      have hcnt := h.ends_le r hrun
      rw [probe]
      omega
    · -- the run moves within the tuples that remain
      obtain ⟨hm, hle⟩ := h.move_le hne hl
      obtain ⟨m, hm'⟩ : ∃ m, m = firstMin (fun r => s.key r (p.probe r)) a l := ⟨_, rfl⟩
      have hmem := mem_range.2 (h.mem_active.1 hm).1
      have hsum := single_le_sum (f := fun r => s.cut n r - p.begins r) (fun _ _ => Nat.zero_le _) hmem
      rw [h.remaining_eq] at hsum
      omega

/-- The loop ends, at the positions of the merge. -/
theorem Valid.loop_eq (fuel : ℕ) : ∀ {p : PathState}, Valid s n p → p.totalRemaining < fuel →
    ∃ p', p.loop s fuel = some p' ∧ ∀ r < s.numRuns, p'.begins r = s.cut n r := by
  induction fuel with
  | zero => exact fun _ hfuel => absurd hfuel (Nat.not_lt_zero _)
  | succ fuel ih =>
    intro p h hfuel
    rw [loop]
    by_cases hz : p.totalRemaining = 0
    · rw [if_pos hz]
      exact ⟨p, rfl, fun r hr => h.begins_eq hz hr⟩
    · rw [if_neg hz, h.checkedStep_eq hz, Option.bind_some]
      obtain ⟨hvld, hless, -⟩ := h.step hz
      exact ih hvld (hless.trans_le (Nat.le_of_lt_succ hfuel))

end PathState

namespace Merger

/-- The tuples before the begins are subtracted, and there are as many (`D_ASSERT`). -/
def subtractBegins (begins : ℕ → ℕ) : ℕ → List ℕ → Option ℕ
  | totalRemaining, [] => some totalRemaining
  | totalRemaining, r :: l =>
    if begins r ≤ totalRemaining then subtractBegins begins (totalRemaining - begins r) l else none

/-- `TemplatedComputePartitionBoundaries` for a merge partition: the begins and ends of the runs. -/
def computePartitionBoundaries (m : Merger κ) (fuel j : ℕ) (begins ends : ℕ → ℕ) : Option ((ℕ → ℕ) × (ℕ → ℕ)) :=
  if j = m.numPartitions - 1 then some (m.runs.count, ends)
  else
    (subtractBegins begins ((j + 1) * m.partitionSize) (List.range m.runs.numRuns)).bind fun totalRemaining =>
      if totalRemaining < m.runs.total then
        (PathState.loop m.runs fuel ⟨begins, ends, totalRemaining,
          (List.range m.runs.numRuns).filter fun r => begins r ≠ ends r⟩).map fun p => (p.begins, p.begins)
      else none

theorem subtractBegins_eq {begins : ℕ → ℕ} (l : List ℕ) : ∀ {n : ℕ}, (l.map begins).sum ≤ n →
    subtractBegins begins n l = some (n - (l.map begins).sum) := by
  induction l with
  | nil => exact fun _ => rfl
  | cons r l ih =>
    intro n hn
    rw [List.map_cons, List.sum_cons] at hn ⊢
    rw [subtractBegins, if_pos (by omega), ih (by omega), Nat.sub_sub]

variable {m : Merger κ}

/-- From the positions of the first `k` elements, those up to the end of the partition are found, and no assertion
    fails. -/
theorem computePartitionBoundaries_eq {j k : ℕ} (hj : j + 1 < m.numPartitions)
    (hk : k ≤ (j + 1) * m.partitionSize) (begins : ℕ → ℕ)
    (hbegins : ∀ r < m.runs.numRuns, begins r = Nat.count (fun i => m.runs.rank r i < k) (m.runs.count r)) :
    ∃ n, ∀ fuel ≥ n, ∃ b, m.computePartitionBoundaries fuel j begins (m.initialPartition j).ends = some (b, b) ∧
        ∀ r < m.runs.numRuns,
          b r = Nat.count (fun i => m.runs.rank r i < (j + 1) * m.partitionSize) (m.runs.count r) := by
  have htot := lt_numPartitions_iff.1 hj
  obtain ⟨n, hn⟩ : ∃ n, n = (j + 1) * m.partitionSize := ⟨_, rfl⟩
  rw [← hn] at htot hk ⊢
  have hcut : ∀ r < m.runs.numRuns, begins r = m.runs.cut k r := fun r hr =>
    (hbegins r hr).trans (RunKeys.cut_eq_count (hk.trans htot.le) hr).symm
  have hrng : ((List.range m.runs.numRuns).map begins).sum = ∑ r ∈ range m.runs.numRuns, begins r := rfl
  have hsum : ∑ r ∈ range m.runs.numRuns, begins r = k :=
    (sum_congr rfl fun r hr => hcut r (mem_range.1 hr)).trans (RunKeys.sum_cut (hk.trans htot.le))
  have hvld : PathState.Valid m.runs n (mergePathStart m.runs n begins (m.initialPartition j).ends) := by
    refine .start htot.le (fun r hr => ?_) (fun r hr => ?_) fun r hr => min_le_left _ _
    · rw [hcut r hr]
      exact RunKeys.cut_mono hk r
    · exact le_min (RunKeys.cut_le_count n r) ((RunKeys.cut_le n r).trans_eq hn)
  refine ⟨n + 1, fun fuel hfuel => ?_⟩
  have hrem : n - ∑ r ∈ range m.runs.numRuns, begins r < m.runs.total := (Nat.sub_le _ _).trans_lt htot
  obtain ⟨p, hloop, hp⟩ := hvld.loop_eq fuel ((Nat.lt_succ_of_le (Nat.sub_le _ _)).trans_le hfuel)
  refine ⟨p.begins, ?_, fun r hr => (hp r hr).trans (RunKeys.cut_eq_count htot.le hr)⟩
  rw [computePartitionBoundaries, if_neg (Nat.ne_of_lt (Nat.lt_sub_of_add_lt hj)), ← hn,
    subtractBegins_eq _ (by rw [hrng, hsum]; exact hk), hrng, Option.bind_some, if_pos hrem]
  rw [mergePathStart] at hloop
  rw [hloop]
  rfl

/-- The first partition of two runs with ties, from the position of the first element. -/
theorem computePartitionBoundaries_eq_twoRuns : ∃ n, ∀ fuel ≥ n, ∃ b,
    twoRuns.computePartitionBoundaries fuel 0 (fun r => if r = 0 then 1 else 0) (twoRuns.initialPartition 0).ends =
      some (b, b) ∧ ∀ r < 2, b r = 1 := by
  obtain ⟨n, hn⟩ := computePartitionBoundaries_eq (m := twoRuns) (j := 0) (k := 1) (by decide) (by decide)
    (fun r => if r = 0 then 1 else 0) (by decide)
  refine ⟨n, fun fuel hfuel => ?_⟩
  obtain ⟨b, heq, hb⟩ := hn fuel hfuel
  have hone : ∀ r < 2, Nat.count (fun i => twoRuns.runs.rank r i < (0 + 1) * twoRuns.partitionSize) 2 = 1 := by
    decide
  exact ⟨b, heq, fun r hr => (hb r hr).trans (hone r hr)⟩

end Merger

end WfOpt

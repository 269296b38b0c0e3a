import WfOpt.Lib.KWayMerge

/-!
# Boundaries of merge partitions

The merge of sorted runs is divided into partitions of `partition_size` tuples. Where a partition ends in each run
is found by a K-way merge path (`TemplatedComputePartitionBoundaries`): every run is probed one fair share of the
missing tuples ahead, and that with the smallest tuple is moved forward, until no tuples are missing
(`mergePathStep`). Whatever bounds on the positions it starts from, the positions found are those of the merge
(`PathState.Valid.begins_eq`).
-/

namespace WfOpt

open Function Finset

variable {κ : Type*} [LinearOrder κ]

/-- `ComputeBoundaryDelta`: the share of each of `k` runs in the tuples remaining, or what the run has left. -/
def computeBoundaryDelta (totalRemaining k begins ends : ℕ) : ℕ :=
  min ((totalRemaining + (k - 1)) / k) (ends - begins)

/-- The variables of `TemplatedComputePartitionBoundaries`: run boundaries, tuples remaining and active runs. -/
structure PathState where
  begins : ℕ → ℕ
  ends : ℕ → ℕ
  totalRemaining : ℕ
  active : List ℕ

namespace PathState

/-- The step size for a run. -/
def delta (p : PathState) (r : ℕ) : ℕ :=
  computeBoundaryDelta p.totalRemaining p.active.length (p.begins r) (p.ends r)

/-- The tuple of a run that is probed. -/
def probe (p : PathState) (r : ℕ) : ℕ := p.begins r + p.delta r - 1

end PathState

/-- The initialisation of `TemplatedComputePartitionBoundaries`, for the first `n`
    tuples of the merge. -/
def mergePathStart (s : RunKeys κ) (n : ℕ) (begins ends : ℕ → ℕ) : PathState where
  begins := begins
  ends := ends
  totalRemaining := n - ∑ r ∈ range s.numRuns, begins r
  active := (List.range s.numRuns).filter fun r => begins r ≠ ends r

/-- The body of the loop of `TemplatedComputePartitionBoundaries`. -/
def mergePathStep (s : RunKeys κ) (p : PathState) : PathState :=
  match p.active with
  | [] => p
  | a :: l =>
    let m := firstMin (fun r => s.key r (p.probe r)) a l
    let begins := Function.update p.begins m (p.begins m + p.delta m)
    { begins := begins
      ends := p.ends
      totalRemaining := p.totalRemaining - p.delta m
      active := if begins m = p.ends m then p.active.erase m else p.active }

namespace PathState

/-- The run boundaries are bounds on the positions of the first `n` tuples. -/
structure Valid (s : RunKeys κ) (n : ℕ) (p : PathState) : Prop where
  begins_le : ∀ r < s.numRuns, p.begins r ≤ s.cut n r
  le_ends : ∀ r < s.numRuns, s.cut n r ≤ p.ends r
  ends_le : ∀ r < s.numRuns, p.ends r ≤ s.count r
  remaining_eq : ∑ r ∈ range s.numRuns, (s.cut n r - p.begins r) = p.totalRemaining
  active_eq : p.active = (List.range s.numRuns).filter fun r => p.begins r ≠ p.ends r

variable {s : RunKeys κ} {n : ℕ} {p : PathState}

/-- The computation can start from any bounds. -/
theorem Valid.start {begins ends : ℕ → ℕ} (hn : n ≤ s.total)
    (hb : ∀ r < s.numRuns, begins r ≤ s.cut n r) (he : ∀ r < s.numRuns, s.cut n r ≤ ends r)
    (hcnt : ∀ r < s.numRuns, ends r ≤ s.count r) :
    Valid s n (mergePathStart s n begins ends) := by
  refine ⟨hb, he, hcnt, ?_, rfl⟩
  have hsum : ∑ r ∈ range s.numRuns, (s.cut n r - begins r) + ∑ r ∈ range s.numRuns, begins r = n := by
    rw [← sum_add_distrib]
    exact (sum_congr rfl fun r hr => Nat.sub_add_cancel (hb r (mem_range.1 hr))).trans
      (RunKeys.sum_cut hn)
  exact Nat.eq_sub_of_add_eq hsum

/-- When no tuples remain, the positions are found. -/
theorem Valid.begins_eq (h : Valid s n p) (hz : p.totalRemaining = 0) {r : ℕ}
    (hr : r < s.numRuns) : p.begins r = s.cut n r := by
  have hsum := h.remaining_eq
  rw [hz, sum_eq_zero_iff] at hsum
  have := hsum r (mem_range.2 hr)
  have := h.begins_le r hr
  omega

theorem Valid.mem_active (h : Valid s n p) {r : ℕ} : r ∈ p.active ↔ r < s.numRuns ∧ p.begins r < p.ends r := by
  rw [h.active_eq, List.mem_filter, List.mem_range, decide_eq_true_eq]
  refine and_congr_right fun hr => ?_
  have := (h.begins_le r hr).trans (h.le_ends r hr)
  omega

/-- The step size of an active run: at least one tuple, and less than what would
    skip all tuples that remain. -/
theorem Valid.delta_bounds (h : Valid s n p) (hne : p.totalRemaining ≠ 0) {r : ℕ} (hr : r ∈ p.active) :
    1 ≤ p.delta r ∧ p.begins r + p.delta r ≤ p.ends r ∧ (p.delta r - 1) * p.active.length < p.totalRemaining := by
  have hlt := (h.mem_active.1 hr).2
  have hlen : 0 < p.active.length := List.length_pos_of_mem hr
  have hceil : 1 ≤ (p.totalRemaining + (p.active.length - 1)) / p.active.length :=
    (Nat.one_le_div_iff hlen).2 (by omega)
  have hle : p.delta r ≤ (p.totalRemaining + (p.active.length - 1)) / p.active.length := min_le_left _ _
  have hle' : p.delta r ≤ p.ends r - p.begins r := min_le_right _ _
  have hpos : 1 ≤ p.delta r := le_min hceil (by omega)
  have hmul : p.delta r * p.active.length ≤ p.totalRemaining + (p.active.length - 1) :=
    (Nat.mul_le_mul_right _ hle).trans (Nat.div_mul_le_self _ _)
  rw [Nat.sub_mul, one_mul]
  omega

/-- The run with the smallest probe moves within the first `n` tuples. -/
theorem Valid.move_le (h : Valid s n p) (hne : p.totalRemaining ≠ 0) {a : ℕ} {l : List ℕ} (hl : p.active = a :: l) :
    let m := firstMin (fun r => s.key r (p.probe r)) a l
    m ∈ p.active ∧ p.begins m + p.delta m ≤ s.cut n m := by
  intro m
  have hm : m ∈ p.active := hl ▸ firstMin_mem (fun r => s.key r (p.probe r)) a l
  have hsort : (a :: l).Pairwise (· < ·) := by
    rw [← hl, h.active_eq]
    exact List.pairwise_lt_range.sublist List.filter_sublist
  have hlen : 0 < p.active.length := List.length_pos_of_mem hm
  have hnd : p.active.Nodup := hl ▸ hsort.imp fun h => h.ne
  have hact : ∀ r ∈ p.active.toFinset, r < s.numRuns := fun r hr =>
    (h.mem_active.1 (List.mem_toFinset.1 hr)).1
  refine ⟨hm, RunKeys.probe_lt_cut hact ?_ ?_ ?_ ?_ ?_⟩
  · exact List.mem_toFinset.2 hm
  · intro r hr
    rw [List.mem_toFinset] at hr
    exact (h.delta_bounds hne hr).2.1.trans (h.ends_le r (h.mem_active.1 hr).1)
  · intro r hr hr'
    rw [List.mem_toFinset, h.mem_active, not_and, not_lt] at hr'
    exact (h.le_ends r hr).trans (hr' hr)
  · intro r hr
    exact firstMin_le (f := fun r => s.key r (p.probe r)) hsort r (hl ▸ List.mem_toFinset.1 hr)
  · -- Each of the active runs skips less than its share of what remains.
    rw [h.remaining_eq]
    have hshare : ∀ r ∈ p.active.toFinset, p.delta r - 1 ≤ (p.totalRemaining - 1) / p.active.length := by
      intro r hr
      rw [Nat.le_div_iff_mul_le hlen]
      have := (h.delta_bounds hne (List.mem_toFinset.1 hr)).2.2
      omega
    have hsum := sum_le_card_nsmul _ _ _ hshare
    rw [List.toFinset_card_of_nodup hnd, smul_eq_mul, Nat.mul_comm] at hsum
    have := Nat.div_mul_le_self (p.totalRemaining - 1) p.active.length
    omega

/-- A step keeps the bounds, and less tuples remain. -/
theorem Valid.step (h : Valid s n p) (hne : p.totalRemaining ≠ 0) :
    Valid s n (mergePathStep s p) ∧ (mergePathStep s p).totalRemaining < p.totalRemaining ∧
      (∀ r, p.begins r ≤ (mergePathStep s p).begins r) ∧ (mergePathStep s p).ends = p.ends := by
  rw [mergePathStep]
  cases hl : p.active with
  | nil =>
    -- Some run has tuples of the first `n` left.
    refine absurd ?_ hne
    rw [← h.remaining_eq, sum_eq_zero_iff]
    intro r hr
    rw [mem_range] at hr
    have hnot : r ∉ p.active := by simp [hl]
    rw [h.mem_active, not_and, not_lt] at hnot
    exact Nat.sub_eq_zero_of_le ((h.le_ends r hr).trans (hnot hr))
  | cons a l =>
    obtain ⟨hm, hle⟩ := h.move_le hne hl
    obtain ⟨m, hmdef⟩ : ∃ m, m = firstMin (fun r => s.key r (p.probe r)) a l := ⟨_, rfl⟩
    simp only [← hmdef] at hm hle ⊢
    have hmr := (h.mem_active.1 hm).1
    obtain ⟨hpos, -, -⟩ := h.delta_bounds hne hm
    have hsum : ∑ r ∈ range s.numRuns, (s.cut n r -
        update p.begins m (p.begins m + p.delta m) r) + p.delta m = p.totalRemaining := by
      have hoth : ∀ r ∈ (range s.numRuns).erase m, s.cut n r -
          update p.begins m (p.begins m + p.delta m) r = s.cut n r - p.begins r :=
        fun r hr => by rw [update_of_ne (ne_of_mem_erase hr)]
      rw [← h.remaining_eq, ← sum_erase_add _ _ (mem_range.2 hmr), sum_congr rfl hoth,
        update_self, ← sum_erase_add (range s.numRuns) (fun r => s.cut n r - p.begins r)
          (mem_range.2 hmr)]
      omega
    refine ⟨⟨fun r hr => ?_, h.le_ends, h.ends_le, Nat.eq_sub_of_add_eq hsum, ?_⟩, ?_,
      fun r => ?_, trivial⟩
    · dsimp only
      by_cases hrm : r = m
      · rw [hrm, update_self]
        exact hle
      · rw [update_of_ne hrm]
        exact h.begins_le r hr
    · -- A run is dropped when it has no tuples left.
      have hnd : p.active.Nodup := by
        rw [h.active_eq]
        exact List.nodup_range.filter _
      rw [← hl, update_self]
      split_ifs with hend
      · rw [hnd.erase_eq_filter, h.active_eq, List.filter_filter]
        refine List.filter_congr fun r _ => ?_
        by_cases hrm : r = m
        · subst hrm
          simp [hend]
        · simp [hrm]
      · rw [h.active_eq]
        refine List.filter_congr fun r _ => ?_
        by_cases hrm : r = m
        · subst hrm
          have := (h.mem_active.1 hm).2
          simp [hend, this.ne]
        · simp [hrm]
    · omega
    · by_cases hrm : r = m
      · rw [hrm, update_self]
        exact Nat.le_add_right _ _
      · rw [update_of_ne hrm]

end PathState

end WfOpt

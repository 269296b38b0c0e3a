import WfOpt.Sort.MergerInvariant

/-!
# What the merger guarantees

Every run ends (`Merger.stepsLeft_step`, `Merger.exists_finished`). Neighbouring partitions meet, and in the end
every tuple of every run has been merged in one partition (`Merger.acquired_boundaries`), in the order of the
partitions (`Merger.acquired_in_order`). Threads only read tuples that have not been destroyed
(`Merger.reads_not_destroyed`).
-/

namespace WfOpt

open List Function Finset

namespace Merger

variable {κ : Type*} [LinearOrder κ] {m : Merger κ} {s : m.State}

/-- All partitions have been merged and scanned. -/
def State.Finished (s : m.State) : Prop :=
  s.global.nextPartitionIdx = m.numPartitions ∧ ∀ t, (s.threads t).task.phase = .idle

/-- A thread reads the tuple `x` of the run `r`: to compute boundaries, or to merge or scan its partition. -/
def State.Reads (s : m.State) (t : Fin m.numThreads) (r x : ℕ) : Prop := match (s.threads t).task with
  | .probe _ path => path.totalRemaining ≠ 0 ∧ r ∈ path.active ∧ x = path.probe r
  | .merge | .scan =>
    r < m.runs.numRuns ∧ (s.threads t).begins r ≤ x ∧ x < (s.threads t).ends r
  | _ => False

instance {t : Fin m.numThreads} {r x : ℕ} : Decidable (s.Reads t r x) := by
  unfold State.Reads
  split <;> infer_instance

/-! ## Termination -/

variable (m) in
/-- The steps left after `ComputePartitionBoundaries`, at most. -/
def stepsAfter : ComputeFor → ℕ
  | .own => 2 * m.numPartitions + m.runs.total + m.runs.numRuns + 17
  | .previous => m.numPartitions + m.runs.numRuns + 8

variable (m) in
/-- The steps a thread takes until it is done with its partition, at most. -/
def taskStepsLeft : MergerTask → ℕ
  | .finished => 0
  | .readBoundaries c => m.stepsAfter c + m.runs.total + m.numPartitions + 8
  | .findHint c prev => m.stepsAfter c + m.runs.total + prev + 7
  | .copyHint c _ => m.stepsAfter c + m.runs.total + 6
  | .compute c => m.stepsAfter c + m.runs.total + 5
  | .probe c path => m.stepsAfter c + path.totalRemaining + 4
  | .checkNext c => m.stepsAfter c + 3
  | .publishNext c => m.stepsAfter c + 2
  | .publishEnd c => m.stepsAfter c + 1
  | .acquire => m.stepsAfter .own
  | .copyBoundaries => m.stepsAfter .previous
  | .merge => m.numPartitions + m.runs.numRuns + 7
  | .scan => m.numPartitions + m.runs.numRuns + 6
  | .tryDestroy => m.numPartitions + m.runs.numRuns + 5
  | .destroyScan e => m.numPartitions - e + m.runs.numRuns + 4
  | .destroyRun _ r => m.runs.numRuns - r + 2
  | .setScanned => 1

theorem taskStepsLeft_threadStep {g : MergerGlobal} {l : MergerLocal}
    (hp : l.partitionIdx < m.numPartitions) (h : m.TaskInv g l l.task)
    (hbusy : l.task.phase ≠ .idle) :
    m.taskStepsLeft (m.threadStep g l).2.task < m.taskStepsLeft l.task := by
  have htgt : ∀ c, l.target c ≤ l.partitionIdx := fun c => by
    cases c with
    | own => exact le_rfl
    | previous => exact Nat.sub_le _ _
  rw [threadStep]
  cases htsk : l.task with
  | finished => exact absurd (by rw [htsk]; rfl) hbusy
  | readBoundaries c =>
    have := htgt c
    simp only [hintStep]
    split_ifs <;> simp only [taskStepsLeft] <;> omega
  | findHint c prev =>
    simp only [hintStep]
    split_ifs <;> simp only [taskStepsLeft] <;> omega
  | copyHint c prev => exact Nat.lt_succ_self _
  | compute c =>
    have := htgt c
    simp only [computeStep]
    split_ifs with hlst
    · simp only [taskStepsLeft]
      omega
    · -- The tuples that remain are some of those of the runs.
      have hle := (lt_numPartitions_iff (m := m) (j := l.target c + 1)).1 (by omega)
      simp only [taskStepsLeft, mergePathStart]
      omega
  | probe c path =>
    rw [htsk] at h
    simp only [computeStep]
    split_ifs with hz
    · simp only [taskStepsLeft]
      omega
    · have := (h.2.2.1.step hz).2.1
      simp only [taskStepsLeft]
      omega
  | checkNext c =>
    simp only [publishStep]
    split_ifs <;> simp only [taskStepsLeft] <;> omega
  | publishNext c => exact Nat.lt_succ_self _
  | publishEnd c => cases c <;> exact Nat.lt_succ_self _
  | acquire =>
    split_ifs <;> simp only [taskStepsLeft, stepsAfter] <;> omega
  | copyBoundaries | merge | scan => exact Nat.lt_succ_self _
  | tryDestroy | destroyScan e =>
    simp only [destroyStep]
    split_ifs <;> simp only [taskStepsLeft] <;> omega
  | destroyRun e r =>
    simp only [destroyStep]
    by_cases hr : r < m.runs.numRuns
    · rw [if_pos hr]
      simp only [taskStepsLeft]
      omega
    · rw [if_neg hr]
      simp only [taskStepsLeft]
      omega
  | setScanned => exact Nat.lt_succ_self _

/-- The steps left in a run, at most. -/
def State.stepsLeft (s : m.State) : ℕ :=
  (m.numPartitions - s.global.nextPartitionIdx) * (m.taskStepsLeft (.readBoundaries .own) + 1) +
    ∑ t, m.taskStepsLeft (s.threads t).task

/-- Every step of a thread that has something to do leaves less steps. -/
theorem stepsLeft_step (h : m.Inv s) (t : Fin m.numThreads) :
    (s.global.nextPartitionIdx = m.numPartitions ∧ (s.threads t).task.phase = .idle) ∨
      (s.step t).stepsLeft < s.stepsLeft := by
  have hsum : ∑ t', m.taskStepsLeft ((s.step t).threads t').task + m.taskStepsLeft (s.threads t).task =
      ∑ t', m.taskStepsLeft (s.threads t').task + m.taskStepsLeft (m.threadStep s.global (s.threads t)).2.task := by
    have hoth : ∀ t' ∈ univ.erase t, m.taskStepsLeft ((s.step t).threads t').task =
        m.taskStepsLeft (s.threads t').task := fun t' ht' => by
      rw [show (s.step t).threads t' = _ from update_of_ne (ne_of_mem_erase ht') ..]
    rw [← sum_erase_add _ _ (mem_univ t), sum_congr rfl hoth,
      ← sum_erase_add univ (fun t' => m.taskStepsLeft (s.threads t').task)
        (mem_univ t), show (s.step t).threads t = _ from update_self ..]
    omega
  have hglob : (s.step t).global = (m.threadStep s.global (s.threads t)).1 := rfl
  rw [State.stepsLeft, State.stepsLeft]
  by_cases hbusy : (s.threads t).task.phase = .idle
  · refine or_iff_not_imp_left.2 fun hnot => ?_
    have hlt : s.global.nextPartitionIdx < m.numPartitions :=
      lt_of_le_of_ne h.global.next_le fun heq => hnot ⟨heq, hbusy⟩
    have htsk : (s.threads t).task = .finished := by
      cases htsk : (s.threads t).task with
      | finished => rfl
      | _ => simp [htsk, MergerTask.phase] at hbusy
    have hstep : m.threadStep s.global (s.threads t) =
        ({ s.global with nextPartitionIdx := s.global.nextPartitionIdx + 1 }, { s.threads t with
            partitionIdx := s.global.nextPartitionIdx, task := .readBoundaries .own }) := by
      rw [threadStep, htsk]
      exact if_neg hlt.ne
    rw [hglob, hstep]
    rw [hstep, htsk] at hsum
    obtain ⟨k, hk⟩ := Nat.exists_eq_add_of_lt hlt
    have hk' : m.numPartitions - (s.global.nextPartitionIdx + 1) = k := by omega
    have hk'' : m.numPartitions - s.global.nextPartitionIdx = k + 1 := by omega
    rw [hk', hk'', Nat.add_mul]
    simp only [taskStepsLeft] at hsum ⊢
    omega
  · have hless := taskStepsLeft_threadStep
      ((h.dispenser.item_lt t hbusy).trans_le h.global.next_le) (h.task t) hbusy
    have hnx : (s.step t).global.nextPartitionIdx = s.global.nextPartitionIdx := by
      rw [hglob]
      rcases m.threadStep_effect s.global (s.threads t) with
        ⟨-, -, h₃, -, -⟩ | ⟨h₁, -, -, -⟩ | ⟨_, _, -, -, -, h₄⟩ | ⟨-, -, h₃⟩
      · exact h₃
      · exact absurd h₁ hbusy
      · rw [h₄]
      · rw [h₃]
        rfl
    rw [hnx]
    omega

/-- From every state of a run, the run can be completed. -/
theorem exists_finished (h : m.Reachable s) (hT : 0 < m.numThreads) :
    ∃ l : List (Fin m.numThreads), (l.foldl State.step s).Finished := by
  induction hn : s.stepsLeft using Nat.strong_induction_on generalizing s with
  | _ n ih =>
    by_cases hs : s.Finished
    · exact ⟨[], hs⟩
    -- Some thread has something to do.
    obtain ⟨t, ht⟩ : ∃ t, ¬(s.global.nextPartitionIdx = m.numPartitions ∧ (s.threads t).task.phase = .idle) := by
      by_contra hall
      push Not at hall
      exact hs ⟨(hall ⟨0, hT⟩).1, fun t => (hall t).2⟩
    have hless := (stepsLeft_step h.inv t).resolve_left ht
    obtain ⟨l, hl⟩ := ih _ (hn ▸ hless) (h.foldl [t]) rfl
    exact ⟨t :: l, hl⟩

/-! ## Merging -/

/-- A position of a run is in one partition. -/
theorem exists_partition {r i : ℕ} (hr : r < m.runs.numRuns) (hi : i < m.runs.count r) :
    ∃ p < m.numPartitions, m.bound p r ≤ i ∧ i < m.bound (p + 1) r := by
  have hend : ∃ j, i < m.bound (j + 1) r := ⟨m.numPartitions, by
    rwa [bound_of_le (Nat.le_succ _) hr]⟩
  refine ⟨Nat.find hend, ?_, ?_, Nat.find_spec hend⟩
  · by_contra hle
    -- Then it is in the last partition already.
    have hpos : 0 < m.numPartitions := by
      by_contra hz
      have := bound_of_le (not_lt.1 hz) hr
      rw [bound_zero] at this
      omega
    refine Nat.find_min hend (m := m.numPartitions - 1) (by omega) ?_
    rwa [bound_of_le (by omega) hr]
  · cases hfind : Nat.find hend with
    | zero =>
      rw [bound_zero]
      exact Nat.zero_le i
    | succ p =>
      have := Nat.find_min hend (m := p) (by omega)
      exact not_lt.1 this

theorem partition_le {r i p p' : ℕ} (h : i < m.bound (p + 1) r) (h' : m.bound p' r ≤ i) : p' ≤ p :=
  Nat.le_of_lt_succ (lt_of_not_ge fun hle => not_lt.2 h' (h.trans_le (bound_mono hle r)))

/-- When all threads are done, every partition has been acquired. -/
theorem Inv.mem_settled (h : m.Inv s) (hs : s.Finished) {p : ℕ} (hp : p < m.numPartitions) :
    (s.global.partitions p).scanned ∧ p ∈ s.global.acquired.map AcquiredBoundaries.partition := by
  have hfin : s.dispenser.finished p := by
    refine (h.dispenser.held p (hp.trans_eq hs.1.symm)).resolve_right ?_
    rintro ⟨t, ht, -⟩
    exact ht (hs.2 t)
  exact ⟨hfin, (h.dispenser.mem_settled p).2 (.inl hfin)⟩

/-- However the threads interleave, the boundaries acquired divide the runs: the first partition begins at the begin
    of the runs, the last one ends at their end, and each begins where the one before it ends. No partition is
    acquired twice. All threads can be done from any state, and then every tuple has been in one partition. -/
theorem acquired_boundaries (h : m.Reachable s) : (∀ a ∈ s.global.acquired, ∀ r < m.runs.numRuns,
      (a.partition = 0 → a.begins r = 0) ∧
      (a.partition + 1 = m.numPartitions → a.ends r = m.runs.count r) ∧
      a.begins r ≤ a.ends r ∧
      ∀ b ∈ s.global.acquired, a.partition = b.partition + 1 → a.begins r = b.ends r) ∧
    (∀ t, (s.threads t).task = .merge → ∃ a ∈ s.global.acquired,
      a.partition = (s.threads t).partitionIdx ∧ ∀ r < m.runs.numRuns,
        a.begins r = (s.threads t).begins r ∧ a.ends r = (s.threads t).ends r) ∧
    (s.global.acquired.map AcquiredBoundaries.partition).Nodup ∧
    (s.Finished → ∀ r < m.runs.numRuns, (∀ a ∈ s.global.acquired, 0 < a.partition →
        a.begins r = (s.global.partitions (a.partition - 1)).ends r) ∧
      ∀ i < m.runs.count r, ∃! a, a ∈ s.global.acquired ∧ a.begins r ≤ i ∧ i < a.ends r) ∧
    (0 < m.numThreads → ∃ l : List (Fin m.numThreads), (l.foldl State.step s).Finished) := by
  have hinv := h.inv
  refine ⟨fun a ha r hr => ?_, fun t ht => ?_, hinv.dispenser.nodup, fun hs r hr => ⟨?_, ?_⟩, exists_finished h⟩
  · obtain ⟨hb, he, -⟩ := hinv.global.acquired a ha
    rw [hb r hr, he r hr]
    refine ⟨fun h0 => ?_, fun hlst => ?_, bound_mono (Nat.le_succ _) r, fun b hb' hab => ?_⟩
    · rw [h0, bound_zero]
    · exact bound_of_le hlst.ge hr
    · rw [hab, (hinv.global.acquired b hb').2.1 r hr]
  · have hmem := (hinv.dispenser.mem_settled (s.threads t).partitionIdx).2
      (.inr ⟨t, congrArg MergerTask.phase ht, rfl⟩)
    obtain ⟨a, ha, hp⟩ := mem_map.1 hmem
    have htsk := hinv.task t
    rw [ht] at htsk
    obtain ⟨hb, he, -⟩ := hinv.global.acquired a ha
    refine ⟨a, ha, hp, fun r hr => ⟨?_, ?_⟩⟩
    · rw [hb r hr, hp, htsk.2.1 r hr]
    · rw [he r hr, hp, htsk.2.2 r hr]
  · intro a ha hpos
    obtain ⟨hb, -, hlt⟩ := hinv.global.acquired a ha
    -- The partition before it has been scanned, so its end is published.
    obtain ⟨hscan, -⟩ := hinv.mem_settled hs (p := a.partition - 1) (by omega)
    have := (hinv.global.done_of_scanned _ hscan).2.1 r hr
    rw [Nat.sub_add_cancel hpos] at this
    rw [hb r hr, this]
  · intro i hi
    obtain ⟨p, hp, hle, hlt⟩ := exists_partition hr hi
    obtain ⟨a, ha, hap⟩ := mem_map.1 (hinv.mem_settled hs hp).2
    have hat : ∀ b ∈ s.global.acquired, b.begins r = m.bound b.partition r ∧
        b.ends r = m.bound (b.partition + 1) r := fun b hb =>
      ⟨(hinv.global.acquired b hb).1 r hr, (hinv.global.acquired b hb).2.1 r hr⟩
    refine ⟨a, ⟨ha, ?_, ?_⟩, fun b ⟨hb, hb₁, hb₂⟩ => ?_⟩
    · rwa [(hat a ha).1, hap]
    · rwa [(hat a ha).2, hap]
    · rw [(hat b hb).1] at hb₁
      rw [(hat b hb).2] at hb₂
      have heq : b.partition = a.partition := hap ▸ (partition_le hlt hb₁).antisymm (partition_le hb₂ hle)
      exact inj_on_of_nodup_map hinv.dispenser.nodup hb ha heq

/-- Two runs with ties, merged by two threads that take turns. -/
def twoRuns : Merger ℕ where
  runs :=
    { numRuns := 2
      count := fun _ => 2
      key := fun _ i => i
      sorted := fun _ _ _ _ h _ => h }
  partitionSize := 2
  numThreads := 2
  external := true
  tuplesPerBlock := 1
  partitionSize_pos := by decide

def afterTurns (n : ℕ) : twoRuns.State :=
  (replicate n [⟨0, by decide⟩, ⟨1, by decide⟩]).flatten.foldl State.step twoRuns.init

theorem acquired_boundaries_two_runs :
    (afterTurns 22).Finished ∧ ∀ r < 2, ∀ i < 2,
      ∃! a, a ∈ (afterTurns 22).global.acquired ∧ a.begins r ≤ i ∧ i < a.ends r := by
  have hs : (afterTurns 22).Finished := ⟨by decide +kernel, by decide +kernel⟩
  have hrch : Reachable (afterTurns 22) := Reachable.foldl (.start rfl) _
  exact ⟨hs, fun r hr i hi => ((acquired_boundaries hrch).2.2.2.1 hs r hr).2 i hi⟩

/-- Merged partition by partition, the runs are sorted, and elements with the same key stay in the order of the runs. -/
theorem acquired_in_order (h : m.Reachable s) : ∀ a ∈ s.global.acquired, ∀ b ∈ s.global.acquired,
    a.partition < b.partition → ∀ r < m.runs.numRuns, ∀ i < a.ends r, ∀ r' < m.runs.numRuns,
      ∀ j < m.runs.count r', b.begins r' ≤ j → m.runs.Before r i r' j := by
  intro a ha b hb hlt r hr i hi r' hr' j hj hle
  rw [(h.inv.global.acquired a ha).2.1 r hr] at hi
  rw [(h.inv.global.acquired b hb).1 r' hr'] at hle
  exact RunKeys.before_of_cut hr hr' hi ((bound_mono hlt r').trans hle) hj

theorem acquired_in_order_two_runs : (afterTurns 22).global.acquired.length = 2 ∧
    ∀ a ∈ (afterTurns 22).global.acquired, ∀ b ∈ (afterTurns 22).global.acquired, a.partition < b.partition →
      ∀ r < 2, ∀ i < a.ends r, ∀ r' < 2, ∀ j < 2, b.begins r' ≤ j → twoRuns.runs.Before r i r' j :=
  ⟨by decide +kernel, acquired_in_order (Reachable.foldl (.start rfl) _)⟩

/-! ## Destroying -/

/-- What is far enough behind is not where a thread reads. -/
theorem Inv.not_destroyed (h : m.Inv s) {t : Fin m.numThreads} {r x j : ℕ}
    (hr : r < m.runs.numRuns) (hbusy : (s.threads t).task.phase ≠ .idle)
    (hj : (s.threads t).partitionIdx < j + m.numThreads) (hx : m.bound j r ≤ x) :
    ∀ d ∈ s.global.destroyed r, d.2 ≤ x / standardVectorSize := by
  intro d hd
  obtain ⟨k, hle, hscan⟩ := h.global.destroyed r hr d hd
  have hkj : k ≤ j := by
    by_contra hlt
    have hnot : ¬(s.global.partitions (s.threads t).partitionIdx).scanned := h.dispenser.not_finished t hbusy
    exact hnot (hscan _ (by omega))
  rw [Nat.le_div_iff_mul_le (by decide)]
  exact hle.trans ((bound_mono hkj r).trans hx)

/-- However the steps of the threads are interleaved, no thread reads a tuple of a
    chunk that has been destroyed. -/
theorem reads_not_destroyed (h : m.Reachable s) {t : Fin m.numThreads} {r x : ℕ} (hread : s.Reads t r x) :
    ∀ d ∈ s.global.destroyed r, ¬(d.1 ≤ x / standardVectorSize ∧ x / standardVectorSize < d.2) := by
  have hinv := h.inv
  have htsk := hinv.task t
  have hmain : ∀ d ∈ s.global.destroyed r, d.2 ≤ x / standardVectorSize := by
    rw [State.Reads] at hread
    cases ht : (s.threads t).task with
    | probe c path =>
      rw [ht] at hread htsk
      obtain ⟨hne, hact, rfl⟩ := hread
      obtain ⟨-, -, hvld, j, hj, hb⟩ := htsk
      have hr := (hvld.mem_active.1 hact).1
      have hdlt := (hvld.delta_bounds hne hact).1
      refine hinv.not_destroyed hr (by simp [ht, MergerTask.phase]) hj ((hb r hr).trans ?_)
      rw [PathState.probe]
      omega
    | merge | scan =>
      rw [ht] at hread htsk
      obtain ⟨hr, hle, -⟩ := hread
      refine hinv.not_destroyed (t := t) hr ?_ (Nat.lt_add_of_pos_right t.pos) ?_
      · simp [ht, MergerTask.phase]
      · exact (htsk.2.1 r hr).ge.trans hle
    | _ =>
      rw [ht] at hread
      exact hread.elim
  exact fun d hd hin => absurd (hmain d hd) (not_le.2 hin.2)

/-- One run, merged by one thread. -/
def oneRun : Merger ℕ where
  runs :=
    { numRuns := 1
      count := fun _ => 8192
      key := fun _ i => i
      sorted := fun _ _ _ _ h _ => h }
  partitionSize := 2048
  numThreads := 1
  external := true
  tuplesPerBlock := 1
  partitionSize_pos := by decide

def oneRunThread : Fin oneRun.numThreads := ⟨0, by decide⟩

def afterSteps (n : ℕ) : oneRun.State := (replicate n oneRunThread).foldl State.step oneRun.init

/-- The last partition is merged, when the first two have been destroyed. -/
theorem reads_not_destroyed_one_run :
    (afterSteps 57).global.destroyed 0 = [(0, 2)] ∧ (afterSteps 57).Reads oneRunThread 0 6144 ∧
      ∀ d ∈ (afterSteps 57).global.destroyed 0,
        ¬(d.1 ≤ 6144 / standardVectorSize ∧ 6144 / standardVectorSize < d.2) := by
  have hrch : Reachable (afterSteps 57) := Reachable.foldl (.start rfl) _
  refine ⟨by decide +kernel, ?_, reads_not_destroyed (t := oneRunThread) hrch ?_⟩
  · decide +kernel
  · decide +kernel

end Merger

end WfOpt

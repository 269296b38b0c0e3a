import WfOpt.Lib.Dispenser
import WfOpt.Sort.Merger

/-!
# What the merger keeps to

However the threads are interleaved, the boundaries found agree: the partition `j` begins at `Merger.bound j`, where
the first `j * partition_size` tuples of the merge end in the runs. Threads start from bounds on these positions and
publish the positions themselves (`Merger.GlobalInv`, `Merger.TaskInv`).

Between the last partition whose begin is known and the one a thread works on, every partition is held by another
thread (`Merger.Inv.exists_near`), which bounds how far back a thread starts.
-/

namespace WfOpt

open List Function Finset

/-- What a thread is up to with its partition. -/
def MergerTask.phase : MergerTask → Phase
  | .finished => .idle
  | .readBoundaries _ | .findHint _ _ | .copyHint _ _ | .compute _ | .probe _ _ | .checkNext _
  | .publishNext _ | .publishEnd _ | .acquire | .copyBoundaries => .working
  | .merge | .scan | .tryDestroy | .destroyScan _ | .destroyRun _ _ | .setScanned => .settled

namespace Merger

variable {κ : Type*} [LinearOrder κ] (m : Merger κ)

/-! ## Where partitions begin -/

/-- Where the partition `j` begins in the run `r`, and the one before it ends. -/
def bound (j r : ℕ) : ℕ := m.runs.cut (min (j * m.partitionSize) m.runs.total) r

variable {m}

theorem bound_mono {j j' : ℕ} (h : j ≤ j') (r : ℕ) : m.bound j r ≤ m.bound j' r :=
  RunKeys.cut_mono (min_le_min_right _ (Nat.mul_le_mul_right _ h)) r

theorem bound_le_count (j r : ℕ) : m.bound j r ≤ m.runs.count r := RunKeys.cut_le_count _ r

theorem bound_zero (r : ℕ) : m.bound 0 r = 0 := by
  rw [bound, Nat.zero_mul, Nat.zero_min]
  rfl

theorem bound_le_mul (j r : ℕ) : m.bound j r ≤ j * m.partitionSize := (RunKeys.cut_le _ r).trans (min_le_left _ _)

theorem lt_numPartitions_iff {j : ℕ} : j < m.numPartitions ↔ j * m.partitionSize < m.runs.total := by
  have := m.partitionSize_pos
  rw [numPartitions, ← Nat.add_one_le_iff, Nat.le_div_iff_mul_le m.partitionSize_pos, Nat.add_mul]
  omega

theorem bound_of_lt {j : ℕ} (h : j < m.numPartitions) (r : ℕ) :
    m.bound j r = m.runs.cut (j * m.partitionSize) r := by
  rw [bound, min_eq_left (lt_numPartitions_iff.1 h).le]

theorem bound_of_le {j r : ℕ} (h : m.numPartitions ≤ j) (hr : r < m.runs.numRuns) :
    m.bound j r = m.runs.count r := by
  have hle : m.runs.total ≤ j * m.partitionSize := not_lt.1 fun h' => absurd (lt_numPartitions_iff.2 h') (not_lt.2 h)
  rw [bound, min_eq_right hle, RunKeys.cut_total hr]

/-! ## Invariants -/

variable (m)

/-- The end of the partition `j` has been published. -/
def Published (g : MergerGlobal) (j : ℕ) : Prop := ∀ r < m.runs.numRuns, (g.partitions j).ends r = m.bound (j + 1) r

/-- The boundaries of the partition `j` have been computed. -/
def Done (g : MergerGlobal) (j : ℕ) : Prop :=
  m.Published g j ∧ (j + 1 < m.numPartitions → (g.partitions (j + 1)).beginComputed)

/-- The begin of the partition `j` is known, and `j` is near `p`. -/
def Near (g : MergerGlobal) (p j : ℕ) : Prop := (g.partitions j).beginComputed ∧ p < j + m.numThreads

/-- The positions are where the partition `j` begins. -/
def At (j : ℕ) (f : ℕ → ℕ) : Prop := ∀ r < m.runs.numRuns, f r = m.bound j r

/-- What holds of the global state. -/
structure GlobalInv (g : MergerGlobal) : Prop where
  begin_zero : (g.partitions 0).beginComputed
  begins_eq : ∀ j, (g.partitions j).beginComputed → m.At j (g.partitions j).begins
  begins_eq_zero : ∀ j, (g.partitions j).beginComputed = false → m.At 0 (g.partitions j).begins
  le_ends : ∀ j, ∀ r < m.runs.numRuns, m.bound (j + 1) r ≤ (g.partitions j).ends r
  ends_le : ∀ j, ∀ r < m.runs.numRuns, (g.partitions j).ends r ≤ m.runs.count r
  next_le : g.nextPartitionIdx ≤ m.numPartitions
  done_of_scanned : ∀ j, (g.partitions j).scanned → j < g.nextPartitionIdx ∧ m.Done g j
  scanned_of_destroy : ∀ j < g.destroyPartitionIdx, (g.partitions j).scanned
  /-- Data is destroyed up to some partition `j`, far enough behind. -/
  destroyed : ∀ r < m.runs.numRuns, ∀ d ∈ g.destroyed r, ∃ j,
    d.2 * standardVectorSize ≤ m.bound j r ∧
      ∀ i, i + 1 < j + m.numThreads → (g.partitions i).scanned
  acquired : ∀ a ∈ g.acquired, m.At a.partition a.begins ∧ m.At (a.partition + 1) a.ends ∧
    a.partition < m.numPartitions

/-- While a thread computes boundaries for the previous partition, those of its own have been computed. -/
def TargetInv (g : MergerGlobal) (p : ℕ) : ComputeFor → Prop
  | .own => True
  | .previous => 1 ≤ p ∧ m.Done g p

/-- The ends a thread starts from are bounds on the positions it looks for. -/
def EndsInv (l : MergerLocal) (c : ComputeFor) : Prop :=
  ∀ r < m.runs.numRuns, m.bound (l.target c + 1) r ≤ l.ends r ∧ l.ends r ≤ m.runs.count r

/-- What holds of a thread that has a task. -/
def TaskInv (g : MergerGlobal) (l : MergerLocal) : MergerTask → Prop
  | .finished => True
  | .readBoundaries c => m.TargetInv g l.partitionIdx c ∧ ∃ j ≤ l.target c, m.Near g l.partitionIdx j
  | .findHint c prev => m.TargetInv g l.partitionIdx c ∧ m.EndsInv l c ∧ prev ≤ l.target c ∧ m.At 0 l.begins ∧
      ∃ j < prev, m.Near g l.partitionIdx j
  | .copyHint c prev => m.TargetInv g l.partitionIdx c ∧ m.EndsInv l c ∧ prev ≤ l.target c ∧
      m.Near g l.partitionIdx (prev - 1)
  | .compute c => m.TargetInv g l.partitionIdx c ∧ m.EndsInv l c ∧
      ∃ j ≤ l.target c, l.partitionIdx < j + m.numThreads ∧ m.At j l.begins
  | .probe c path => m.TargetInv g l.partitionIdx c ∧ l.target c + 1 < m.numPartitions ∧
      path.Valid m.runs ((l.target c + 1) * m.partitionSize) ∧
      ∃ j, l.partitionIdx < j + m.numThreads ∧ ∀ r < m.runs.numRuns, m.bound j r ≤ path.begins r
  | .checkNext c => m.TargetInv g l.partitionIdx c ∧ m.At (l.target c + 1) l.begins ∧ m.At (l.target c + 1) l.ends
  | .publishNext c => m.TargetInv g l.partitionIdx c ∧ m.At (l.target c + 1) l.begins ∧
      m.At (l.target c + 1) l.ends ∧ l.target c + 1 < m.numPartitions
  | .publishEnd c => m.TargetInv g l.partitionIdx c ∧ m.At (l.target c + 1) l.ends ∧
      (l.target c + 1 < m.numPartitions → (g.partitions (l.target c + 1)).beginComputed)
  | .acquire => m.Done g l.partitionIdx
  | .copyBoundaries => m.Done g l.partitionIdx ∧ (g.partitions l.partitionIdx).beginComputed
  | .merge | .scan => m.Done g l.partitionIdx ∧ m.At l.partitionIdx l.begins ∧ m.At (l.partitionIdx + 1) l.ends
  | .tryDestroy | .setScanned => m.Done g l.partitionIdx
  | .destroyScan e => m.Done g l.partitionIdx ∧ ∀ i < e, (g.partitions i).scanned
  | .destroyRun e _ => m.Done g l.partitionIdx ∧ ∀ i < e + m.numThreads, (g.partitions i).scanned

/-- What is never taken back. -/
structure Grows (g g' : MergerGlobal) : Prop where
  next_le : g.nextPartitionIdx ≤ g'.nextPartitionIdx
  beginComputed : ∀ j, (g.partitions j).beginComputed → (g'.partitions j).beginComputed
  published : ∀ j, m.Published g j → m.Published g' j
  scanned : ∀ j, (g.partitions j).scanned → (g'.partitions j).scanned

variable {m} {g g' : MergerGlobal} {l : MergerLocal}

theorem Grows.of_eq (hp : g'.partitions = g.partitions)
    (hn : g.nextPartitionIdx ≤ g'.nextPartitionIdx) : m.Grows g g' := by
  refine ⟨hn, fun j h => ?_, fun j h r hr => ?_, fun j h => ?_⟩
  · rwa [hp]
  · rw [hp, h r hr]
  · rwa [hp]

theorem Grows.refl : m.Grows g g := .of_eq rfl le_rfl

theorem Grows.done (h : m.Grows g g') {j : ℕ} (hd : m.Done g j) : m.Done g' j :=
  ⟨h.published j hd.1, fun hj => h.beginComputed _ (hd.2 hj)⟩

theorem Grows.near (h : m.Grows g g') {p j : ℕ} (hn : m.Near g p j) : m.Near g' p j := ⟨h.beginComputed j hn.1, hn.2⟩

theorem Grows.targetInv (h : m.Grows g g') {p : ℕ} {c : ComputeFor} (ht : m.TargetInv g p c) :
    m.TargetInv g' p c := by
  cases c with
  | own => trivial
  | previous => exact ⟨ht.1, h.done ht.2⟩

/-- What holds of a thread is not affected by the steps of others. -/
theorem Grows.taskInv (h : m.Grows g g') {task : MergerTask} (ht : m.TaskInv g l task) : m.TaskInv g' l task := by
  cases task with
  | finished => trivial
  | readBoundaries c =>
    obtain ⟨h₁, j, hj, hn⟩ := ht
    exact ⟨h.targetInv h₁, j, hj, h.near hn⟩
  | findHint c prev =>
    obtain ⟨h₁, h₂, h₃, h₄, j, hj, hn⟩ := ht
    exact ⟨h.targetInv h₁, h₂, h₃, h₄, j, hj, h.near hn⟩
  | copyHint c prev => exact ⟨h.targetInv ht.1, ht.2.1, ht.2.2.1, h.near ht.2.2.2⟩
  | compute c | probe c path | checkNext c | publishNext c => exact ⟨h.targetInv ht.1, ht.2⟩
  | publishEnd c => exact ⟨h.targetInv ht.1, ht.2.1, fun hj => h.beginComputed _ (ht.2.2 hj)⟩
  | acquire => exact h.done ht
  | copyBoundaries => exact ⟨h.done ht.1, h.beginComputed _ ht.2⟩
  | merge | scan => exact ⟨h.done ht.1, ht.2⟩
  | tryDestroy => exact h.done ht
  | setScanned => exact h.done ht
  | destroyScan e | destroyRun e r => exact ⟨h.done ht.1, fun i hi => h.scanned i (ht.2 i hi)⟩

/-! ## The steps of a thread -/

/-- The begin of a partition near the one a thread turns to is known. -/
def Fresh (m : Merger κ) (g : MergerGlobal) (l : MergerLocal) : Prop :=
  (l.task = .finished → g.nextPartitionIdx < m.numPartitions →
    ∃ j ≤ g.nextPartitionIdx, m.Near g g.nextPartitionIdx j) ∧
  (l.task = .acquire → ∃ j ≤ l.partitionIdx, m.Near g l.partitionIdx j)

/-- A thread takes the begin of its partition, or of a near one before it. -/
theorem hintStep_inv (hg : m.GlobalInv g) (h : m.TaskInv g l l.task) :
    m.TaskInv g (hintStep g l l.task) (hintStep g l l.task).task := by
  cases htsk : l.task with
  | readBoundaries c =>
    rw [htsk] at h
    obtain ⟨h₁, j, hj, hn⟩ := h
    have hends : ∀ r < m.runs.numRuns, m.bound (l.target c + 1) r ≤ (g.partitions (l.target c)).ends r ∧
        (g.partitions (l.target c)).ends r ≤ m.runs.count r :=
      fun r hr => ⟨hg.le_ends _ r hr, hg.ends_le _ r hr⟩
    cases hflag : (g.partitions (l.target c)).beginComputed with
    | true =>
      simp only [hintStep, hflag]
      exact ⟨h₁, hends, l.target c, le_rfl, hn.2.trans_le (by omega), hg.begins_eq _ hflag⟩
    | false =>
      simp only [hintStep, hflag]
      have hne : j ≠ l.target c := by
        rintro rfl
        exact absurd hn.1 (by simp [hflag])
      exact ⟨h₁, hends, le_rfl, hg.begins_eq_zero _ hflag, j, lt_of_le_of_ne hj hne, hn⟩
  | findHint c prev =>
    rw [htsk] at h
    obtain ⟨h₁, h₂, h₃, h₄, j, hj, hn⟩ := h
    simp only [hintStep]
    split_ifs with hprev hflag
    · exact ⟨h₁, h₂, h₃, hflag, hn.2.trans_le (by omega)⟩
    · have hne : j ≠ prev - 1 := by
        rintro rfl
        exact hflag hn.1
      exact ⟨h₁, h₂, (Nat.sub_le _ _).trans h₃, h₄, j, by omega, hn⟩
    · -- No begin has been found but that of the first partition.
      exact ⟨h₁, h₂, 0, Nat.zero_le _, hn.2.trans_le (by omega), h₄⟩
  | copyHint c prev =>
    rw [htsk] at h
    obtain ⟨h₁, h₂, h₃, h₄⟩ := h
    exact ⟨h₁, h₂, prev - 1, (Nat.sub_le _ _).trans h₃, h₄.2, hg.begins_eq _ h₄.1⟩
  | _ => exact h

/-- From any bounds, a thread finds the positions where the partition ends. -/
theorem computeStep_inv (hp : l.partitionIdx < m.numPartitions) (h : m.TaskInv g l l.task) :
    m.TaskInv g (m.computeStep l l.task) (m.computeStep l l.task).task := by
  have htgt : ∀ c, l.target c ≤ l.partitionIdx := fun c => by
    cases c with
    | own => exact le_rfl
    | previous => exact Nat.sub_le _ _
  cases htsk : l.task with
  | compute c =>
    rw [htsk] at h
    obtain ⟨h₁, h₂, j, hj, hlt, hb⟩ := h
    have hle := (htgt c).trans_lt hp
    simp only [computeStep]
    split_ifs with hlst
    · -- The ends copied are those of the runs, as the partition is the last one.
      have hbd : ∀ r < m.runs.numRuns, m.bound (l.target c + 1) r = m.runs.count r :=
        fun r hr => bound_of_le (by omega) hr
      refine ⟨h₁, fun r hr => (hbd r hr).symm, fun r hr => ?_⟩
      exact le_antisymm ((h₂ r hr).2.trans (hbd r hr).ge) (h₂ r hr).1
    · have hlt' : l.target c + 1 < m.numPartitions := by omega
      have hvld : (mergePathStart m.runs ((l.target c + 1) * m.partitionSize) l.begins
          l.ends).Valid m.runs ((l.target c + 1) * m.partitionSize) := by
        refine PathState.Valid.start (lt_numPartitions_iff.1 hlt').le ?_ ?_ fun r hr => (h₂ r hr).2
        · intro r hr
          rw [← bound_of_lt hlt', hb r hr]
          exact bound_mono (by omega) r
        · intro r hr
          rw [← bound_of_lt hlt']
          exact (h₂ r hr).1
      exact ⟨h₁, hlt', hvld, j, hlt, fun r hr => (hb r hr).ge⟩
  | probe c path =>
    rw [htsk] at h
    obtain ⟨h₁, h₂, h₃, j, hlt, hb⟩ := h
    simp only [computeStep]
    split_ifs with hz
    · have hbegs : m.At (l.target c + 1) path.begins := fun r hr => by
        rw [bound_of_lt h₂, h₃.begins_eq hz hr]
      exact ⟨h₁, hbegs, hbegs⟩
    · obtain ⟨hvld, -, hmono, -⟩ := h₃.step hz
      exact ⟨h₁, h₂, hvld, j, hlt, fun r hr => (hb r hr).trans (hmono r)⟩
  | _ => exact h

/-- The begin or end of a partition can be set to its positions, and a partition that is done be marked as scanned. -/
theorem update_inv (hg : m.GlobalInv g) {j : ℕ} {f : MergePartition → MergePartition}
    (hflag : ∀ p, p.beginComputed → (f p).beginComputed)
    (hscan : ∀ p, p.scanned → (f p).scanned)
    (hdone : (f (g.partitions j)).scanned → (g.partitions j).scanned ∨ (j < g.nextPartitionIdx ∧ m.Done g j))
    (hbeg : (f (g.partitions j)).beginComputed → m.At j (f (g.partitions j)).begins)
    (hz : (f (g.partitions j)).beginComputed = false → m.At 0 (f (g.partitions j)).begins)
    (hend : (f (g.partitions j)).ends = (g.partitions j).ends ∨ m.At (j + 1) (f (g.partitions j)).ends) :
    m.GlobalInv (g.update j f) ∧ m.Grows g (g.update j f) := by
  -- One field at a time, for the partition changed and for the others.
  have hcs : ∀ i, (g.update j f).partitions i = g.partitions i ∨
      (i = j ∧ (g.update j f).partitions i = f (g.partitions j)) := by
    intro i
    rcases eq_or_ne i j with rfl | hne
    · exact .inr ⟨rfl, MergerGlobal.update_partitions_self⟩
    · exact .inl (MergerGlobal.update_partitions_of_ne hne)
  have hgrows : m.Grows g (g.update j f) := by
    refine ⟨le_rfl, fun i hi => ?_, fun i hi r hr => ?_, fun i hi => ?_⟩
    · rcases hcs i with h | ⟨rfl, h⟩
      · rwa [h]
      · rw [h]
        exact hflag _ hi
    · rcases hcs i with h | ⟨rfl, h⟩
      · rw [h, hi r hr]
      · rcases hend with h' | h'
        · rw [h, h', hi r hr]
        · rw [h, h' r hr]
    · rcases hcs i with h | ⟨rfl, h⟩
      · rwa [h]
      · rw [h]
        exact hscan _ hi
  refine ⟨⟨?_, fun i hi => ?_, fun i hi => ?_, fun i r hr => ?_, fun i r hr => ?_, hg.next_le,
    fun i hi => ?_, fun i hi => ?_, fun r hr d hd => ?_, hg.acquired⟩, hgrows⟩
  · exact hgrows.beginComputed 0 hg.begin_zero
  · rcases hcs i with h | ⟨rfl, h⟩
    · rw [h] at hi ⊢
      exact hg.begins_eq i hi
    · rw [h] at hi ⊢
      exact hbeg hi
  · rcases hcs i with h | ⟨rfl, h⟩
    · rw [h] at hi ⊢
      exact hg.begins_eq_zero i hi
    · rw [h] at hi ⊢
      exact hz hi
  · rcases hcs i with h | ⟨rfl, h⟩
    · rw [h]
      exact hg.le_ends i r hr
    · rcases hend with h' | h'
      · rw [h, h']
        exact hg.le_ends i r hr
      · rw [h, h' r hr]
  · rcases hcs i with h | ⟨rfl, h⟩
    · rw [h]
      exact hg.ends_le i r hr
    · rcases hend with h' | h'
      · rw [h, h']
        exact hg.ends_le i r hr
      · rw [h, h' r hr]
        exact bound_le_count _ r
  · have h' : i < g.nextPartitionIdx ∧ m.Done g i := by
      rcases hcs i with h | ⟨rfl, h⟩
      · rw [h] at hi
        exact hg.done_of_scanned i hi
      · rw [h] at hi
        exact (hdone hi).elim (hg.done_of_scanned i) id
    exact ⟨h'.1, hgrows.done h'.2⟩
  · exact hgrows.scanned i (hg.scanned_of_destroy i hi)
  · obtain ⟨k, h₁, h₂⟩ := hg.destroyed r hr d hd
    exact ⟨k, h₁, fun i hi => hgrows.scanned i (h₂ i hi)⟩

/-- A thread publishes the positions it found. -/
theorem publishStep_inv (hg : m.GlobalInv g) (hp : l.partitionIdx < m.numPartitions) (h : m.TaskInv g l l.task) :
    m.GlobalInv (m.publishStep g l l.task).1 ∧ m.Grows g (m.publishStep g l l.task).1 ∧
      m.TaskInv (m.publishStep g l l.task).1 (m.publishStep g l l.task).2
        (m.publishStep g l l.task).2.task := by
  cases htsk : l.task with
  | checkNext c =>
    rw [htsk] at h
    obtain ⟨h₁, h₂, h₃⟩ := h
    refine ⟨hg, .refl, ?_⟩
    simp only [publishStep]
    split_ifs with hnx
    · exact ⟨h₁, h₃, fun hlt => hnx.resolve_left (by change l.target c + 1 < _ at hlt; omega)⟩
    · have htgt : l.target c ≤ l.partitionIdx := by
        cases c with
        | own => exact le_rfl
        | previous => exact Nat.sub_le _ _
      have hlt : l.target c + 1 < m.numPartitions := by omega
      exact ⟨h₁, h₂, h₃, hlt⟩
  | publishNext c =>
    rw [htsk] at h
    obtain ⟨h₁, h₂, h₃, h₄⟩ := h
    simp only [publishStep]
    split_ifs with hnx
    · exact ⟨hg, .refl, h₁, h₃, fun _ => hnx⟩
    · obtain ⟨hg', hgrows⟩ := update_inv hg (j := l.target c + 1)
        (f := fun p => { p with begins := l.begins, beginComputed := true })
        (fun _ _ => rfl) (fun _ h => h) .inl (fun _ => h₂) (fun h => absurd h (by simp)) (.inl rfl)
      refine ⟨hg', hgrows, hgrows.targetInv h₁, h₃, fun _ => ?_⟩
      exact congrArg MergePartition.beginComputed MergerGlobal.update_partitions_self
  | publishEnd c =>
    rw [htsk] at h
    obtain ⟨h₁, h₂, h₃⟩ := h
    obtain ⟨hg', hgrows⟩ := update_inv hg (j := l.target c) (f := fun p => { p with ends := l.ends })
      (fun _ h => h) (fun _ h => h) .inl (hg.begins_eq _) (hg.begins_eq_zero _) (.inr h₂)
    have hdone : m.Done (g.update (l.target c) fun p => { p with ends := l.ends }) (l.target c) := by
      refine ⟨fun r hr => ?_, fun hlt => hgrows.beginComputed _ (h₃ hlt)⟩
      exact (congrArg (MergePartition.ends · r) MergerGlobal.update_partitions_self).trans (h₂ r hr)
    refine ⟨hg', hgrows, ?_⟩
    cases c with
    | own => exact hdone
    | previous =>
      -- The begin of the partition of the thread itself is known now.
      have hp₁ : l.partitionIdx - 1 + 1 = l.partitionIdx := Nat.sub_add_cancel h₁.1
      refine ⟨hgrows.done h₁.2, ?_⟩
      have := hdone.2 (by change l.partitionIdx - 1 + 1 < _; omega)
      change (MergePartition.beginComputed (MergerGlobal.partitions _ (l.partitionIdx - 1 + 1))) at this
      rwa [hp₁] at this
  | _ => exact ⟨hg, .refl, h⟩

theorem destroyData_partitions (g : MergerGlobal) (r x y : ℕ) : (destroyData g r x y).partitions = g.partitions ∧
      (destroyData g r x y).nextPartitionIdx = g.nextPartitionIdx := by
  rw [destroyData]
  split_ifs <;> exact ⟨rfl, rfl⟩

/-- The chunks of a run are destroyed up to the end of a partition that is far enough
    behind. -/
theorem destroyData_inv (hg : m.GlobalInv g) (hT : 0 < m.numThreads) {e r x : ℕ}
    (he : ∀ i < e + m.numThreads, (g.partitions i).scanned) :
    m.GlobalInv (destroyData g r x ((g.partitions e).ends r)) := by
  rw [destroyData]
  split_ifs with hemp
  · exact hg
  refine ⟨hg.begin_zero, hg.begins_eq, hg.begins_eq_zero, hg.le_ends, hg.ends_le, hg.next_le,
    hg.done_of_scanned, hg.scanned_of_destroy, fun r' hr' d hd => ?_, hg.acquired⟩
  dsimp only at hd ⊢
  rcases eq_or_ne r' r with rfl | hne
  · rw [Function.update_self, List.mem_append, List.mem_singleton] at hd
    rcases hd with hd | rfl
    · exact hg.destroyed r' hr' d hd
    · have hpublished := (hg.done_of_scanned e (he e (by omega))).2.1 r' hr'
      refine ⟨e + 1, ?_, fun i hi => he i (by omega)⟩
      rw [hpublished]
      exact Nat.div_mul_le_self _ _
  · rw [Function.update_of_ne hne] at hd
    exact hg.destroyed r' hr' d hd

theorem destroyStep_inv (hg : m.GlobalInv g) (hT : 0 < m.numThreads) (h : m.TaskInv g l l.task) :
    m.GlobalInv (m.destroyStep g l l.task).1 ∧ m.Grows g (m.destroyStep g l l.task).1 ∧
      m.TaskInv (m.destroyStep g l l.task).1 (m.destroyStep g l l.task).2
        (m.destroyStep g l l.task).2.task := by
  have hlock : ∀ b, m.GlobalInv { g with destroyLocked := b } := fun _ =>
    ⟨hg.begin_zero, hg.begins_eq, hg.begins_eq_zero, hg.le_ends, hg.ends_le, hg.next_le,
      hg.done_of_scanned, hg.scanned_of_destroy, hg.destroyed, hg.acquired⟩
  cases htsk : l.task with
  | tryDestroy =>
    rw [htsk] at h
    simp only [destroyStep]
    split_ifs
    · exact ⟨hg, .refl, h⟩
    · exact ⟨hlock true, .of_eq rfl le_rfl, h, hg.scanned_of_destroy⟩
  | destroyScan e =>
    rw [htsk] at h
    obtain ⟨hdone, he⟩ := h
    simp only [destroyStep]
    split_ifs with hscan hnothing
    · refine ⟨hg, .refl, hdone, fun i hi => ?_⟩
      rcases Nat.lt_succ_iff_lt_or_eq.1 hi with hi | rfl
      · exact he i hi
      · exact hscan.2
    · exact ⟨hlock false, .of_eq rfl le_rfl, hdone⟩
    · refine ⟨hg, .refl, hdone, fun i hi => he i ?_⟩
      simp only [nothingToDestroy, decide_eq_true_eq] at hnothing
      omega
  | destroyRun e r =>
    rw [htsk] at h
    obtain ⟨hdone, he⟩ := h
    have hlt : e < m.numPartitions := (hg.done_of_scanned e (he e (by omega))).1.trans_le hg.next_le
    simp only [destroyStep, if_neg hlt.ne]
    by_cases hr : r < m.runs.numRuns
    · rw [if_pos hr]
      obtain ⟨hp, hn⟩ := destroyData_partitions g r (if g.destroyPartitionIdx = 0 then 0 else
        (g.partitions g.destroyPartitionIdx).ends r) ((g.partitions e).ends r)
      have hgrows := Grows.of_eq (m := m) hp hn.ge
      exact ⟨destroyData_inv hg hT he, hgrows, hgrows.done hdone, fun i hi => hgrows.scanned i (he i hi)⟩
    · rw [if_neg hr]
      exact ⟨⟨hg.begin_zero, hg.begins_eq, hg.begins_eq_zero, hg.le_ends, hg.ends_le, hg.next_le,
        hg.done_of_scanned, fun i hi => he i (Nat.lt_add_right _ hi), hg.destroyed, hg.acquired⟩,
        .of_eq rfl le_rfl, hdone⟩
  | _ => exact ⟨hg, .refl, h⟩

/-- A step of a thread keeps to what holds of the global state and of the thread, and
    takes nothing back. -/
theorem threadStep_inv (hg : m.GlobalInv g) (hT : 0 < m.numThreads) (h : m.TaskInv g l l.task)
    (hp : l.task.phase ≠ .idle → l.partitionIdx < g.nextPartitionIdx) (hfr : m.Fresh g l) :
    m.GlobalInv (m.threadStep g l).1 ∧ m.Grows g (m.threadStep g l).1 ∧
      m.TaskInv (m.threadStep g l).1 (m.threadStep g l).2 (m.threadStep g l).2.task := by
  have hlt : l.task.phase ≠ .idle → l.partitionIdx < m.numPartitions := fun hne => (hp hne).trans_le hg.next_le
  rw [threadStep]
  cases htsk : l.task with
  | finished =>
    dsimp only
    split_ifs with hnx
    · exact ⟨hg, .refl, h⟩
    · have hlt := lt_of_le_of_ne hg.next_le hnx
      have hgrows : m.Grows g { g with nextPartitionIdx := g.nextPartitionIdx + 1 } := .of_eq rfl (Nat.le_succ _)
      exact ⟨⟨hg.begin_zero, hg.begins_eq, hg.begins_eq_zero, hg.le_ends, hg.ends_le, hlt,
        fun j hj => ⟨(hg.done_of_scanned j hj).1.trans (Nat.lt_succ_self _),
          (hg.done_of_scanned j hj).2⟩, hg.scanned_of_destroy, hg.destroyed, hg.acquired⟩,
        hgrows, trivial, hfr.1 htsk hlt⟩
  | readBoundaries c | findHint c prev | copyHint c prev =>
    have := hintStep_inv hg h
    rw [htsk] at this
    exact ⟨hg, .refl, this⟩
  | compute c | probe c path =>
    have := computeStep_inv (hlt (by simp [htsk, MergerTask.phase])) h
    rw [htsk] at this
    exact ⟨hg, .refl, this⟩
  | checkNext c | publishNext c | publishEnd c =>
    have := publishStep_inv hg (hlt (by simp [htsk, MergerTask.phase])) h
    rwa [htsk] at this
  | acquire =>
    rw [htsk] at h
    refine ⟨hg, .refl, ?_⟩
    dsimp only
    split_ifs with hflag
    · exact ⟨h, hflag⟩
    · -- The begin is not known, so a near one is that of an earlier partition.
      obtain ⟨j, hj, hn⟩ := hfr.2 htsk
      have hne : j ≠ l.partitionIdx := by
        rintro rfl
        exact hflag hn.1
      have hlt : j < l.partitionIdx := lt_of_le_of_ne hj hne
      exact ⟨⟨Nat.one_le_of_lt hlt, h⟩, j, Nat.le_sub_one_of_lt hlt, hn⟩
  | copyBoundaries =>
    rw [htsk] at h
    have hat := hg.begins_eq _ h.2
    refine ⟨⟨hg.begin_zero, hg.begins_eq, hg.begins_eq_zero, hg.le_ends, hg.ends_le, hg.next_le,
      hg.done_of_scanned, hg.scanned_of_destroy, hg.destroyed, fun a ha => ?_⟩,
      .of_eq rfl le_rfl, h.1, hat, h.1.1⟩
    rcases List.mem_append.1 ha with ha | ha
    · exact hg.acquired a ha
    · rw [List.mem_singleton.1 ha]
      exact ⟨hat, h.1.1, hlt (by simp [htsk, MergerTask.phase])⟩
  | merge =>
    rw [htsk] at h
    exact ⟨hg, .refl, h⟩
  | scan =>
    rw [htsk] at h
    exact ⟨hg, .refl, h.1⟩
  | tryDestroy | destroyScan e | destroyRun e r =>
    have := destroyStep_inv hg hT h
    rwa [htsk] at this
  | setScanned =>
    rw [htsk] at h
    obtain ⟨hg', hgrows⟩ := update_inv hg (j := l.partitionIdx)
      (f := fun p => { p with scanned := true }) (fun _ h => h) (fun _ _ => rfl)
      (fun _ => .inr ⟨hp (by simp [htsk, MergerTask.phase]), h⟩) (hg.begins_eq _) (hg.begins_eq_zero _) (.inl rfl)
    exact ⟨hg', hgrows, trivial⟩

/-! ## The system -/

/-- Partitions are handed out to the threads, which settle their boundaries and
    finish by scanning them. -/
def State.dispenser (s : m.State) : Dispenser (Fin m.numThreads) where
  next := s.global.nextPartitionIdx
  finished i := (s.global.partitions i).scanned
  settled := s.global.acquired.map AcquiredBoundaries.partition
  phase t := (s.threads t).task.phase
  item t := (s.threads t).partitionIdx

/-- What a step changes of the partitions handed out, settled and finished. -/
inductive Effect (g : MergerGlobal) (l : MergerLocal) (g' : MergerGlobal) (l' : MergerLocal) : Prop
  | quiet : l'.task.phase = l.task.phase → l'.partitionIdx = l.partitionIdx →
      g'.nextPartitionIdx = g.nextPartitionIdx →
      (∀ i, (g'.partitions i).scanned = (g.partitions i).scanned) → g'.acquired = g.acquired →
      Effect g l g' l'
  | take : l.task.phase = .idle → l'.task.phase = .working → l'.partitionIdx = g.nextPartitionIdx →
      g' = { g with nextPartitionIdx := g.nextPartitionIdx + 1 } → Effect g l g' l'
  | settle (begins ends : ℕ → ℕ) : l.task.phase = .working → l'.task.phase = .settled →
      l'.partitionIdx = l.partitionIdx →
      g' = { g with acquired := g.acquired ++ [⟨l.partitionIdx, begins, ends⟩] } → Effect g l g' l'
  | finish : l.task.phase = .settled → l'.task.phase = .idle →
      g' = g.update l.partitionIdx (fun p => { p with scanned := true }) → Effect g l g' l'

theorem update_scanned (g : MergerGlobal) (j : ℕ) {f : MergePartition → MergePartition}
    (hf : ∀ p, (f p).scanned = p.scanned) (i : ℕ) :
    ((g.update j f).partitions i).scanned = (g.partitions i).scanned := by
  rcases eq_or_ne i j with rfl | hne
  · rw [MergerGlobal.update_partitions_self, hf]
  · rw [MergerGlobal.update_partitions_of_ne hne]

theorem destroyData_acquired (g : MergerGlobal) (r x y : ℕ) : (destroyData g r x y).acquired = g.acquired := by
  rw [destroyData]
  split_ifs <;> rfl

theorem threadStep_effect (g : MergerGlobal) (l : MergerLocal) :
    Effect g l (m.threadStep g l).1 (m.threadStep g l).2 := by
  rw [threadStep]
  cases htsk : l.task with
  | finished =>
    dsimp only
    split_ifs with hnx
    · exact .quiet rfl rfl rfl (fun _ => rfl) rfl
    · exact .take (by simp [htsk, MergerTask.phase]) rfl rfl rfl
  | readBoundaries c | findHint c prev =>
    refine .quiet ?_ rfl rfl (fun _ => rfl) rfl
    simp only [hintStep, htsk]
    split_ifs <;> rfl
  | copyHint c prev =>
    refine .quiet ?_ rfl rfl (fun _ => rfl) rfl
    rw [htsk]
    rfl
  | compute c | probe c path =>
    simp only [computeStep]
    split_ifs
    iterate 2
      · exact .quiet (by rw [htsk]; rfl) rfl rfl (fun _ => rfl) rfl
  | checkNext c =>
    refine .quiet ?_ rfl rfl (fun _ => rfl) rfl
    simp only [publishStep, htsk]
    split_ifs <;> rfl
  | publishNext c =>
    simp only [publishStep]
    split_ifs
    · exact .quiet (by rw [htsk]; rfl) rfl rfl (fun _ => rfl) rfl
    · exact .quiet (by rw [htsk]; rfl) rfl rfl (update_scanned g _ fun _ => rfl) rfl
  | publishEnd c =>
    simp only [publishStep]
    refine .quiet ?_ rfl rfl (update_scanned g _ fun _ => rfl) rfl
    rw [htsk]
    cases c <;> rfl
  | acquire =>
    refine .quiet ?_ rfl rfl (fun _ => rfl) rfl
    rw [htsk]
    split_ifs <;> rfl
  | copyBoundaries => exact .settle _ _ (by rw [htsk]; rfl) rfl rfl rfl
  | merge | scan => exact .quiet (by rw [htsk]; rfl) rfl rfl (fun _ => rfl) rfl
  | tryDestroy =>
    simp only [destroyStep]
    split_ifs
    iterate 2
      · exact .quiet (by rw [htsk]; rfl) rfl rfl (fun _ => rfl) rfl
  | destroyScan e =>
    simp only [destroyStep]
    split_ifs
    iterate 3
      · exact .quiet (by rw [htsk]; rfl) rfl rfl (fun _ => rfl) rfl
  | destroyRun e r =>
    simp only [destroyStep]
    by_cases hr : r < m.runs.numRuns
    · rw [if_pos hr]
      obtain ⟨hp, hn⟩ := destroyData_partitions g r (if g.destroyPartitionIdx = 0 then 0 else
        (g.partitions g.destroyPartitionIdx).ends r)
        (if e = m.numPartitions then m.runs.count r else (g.partitions e).ends r)
      exact .quiet (by rw [htsk]; rfl) rfl hn (fun i => by rw [hp]) (destroyData_acquired ..)
    · rw [if_neg hr]
      exact .quiet (by rw [htsk]; rfl) rfl rfl (fun _ => rfl) rfl
  | setScanned => exact .finish (by rw [htsk]; rfl) rfl rfl

/-- The system hands out partitions. -/
theorem State.step_dispenser (s : m.State) (t : Fin m.numThreads) :
    (s.step t).dispenser = s.dispenser ∨ s.dispenser.Step t (s.step t).dispenser := by
  have hself : (s.step t).threads t = (m.threadStep s.global (s.threads t)).2 := Function.update_self ..
  have hthr : ∀ t', t' ≠ t → (s.step t).threads t' = s.threads t' := fun t' hne => Function.update_of_ne hne ..
  have hoths : s.dispenser.Others t (s.step t).dispenser := fun t' hne =>
    ⟨congrArg (MergerTask.phase ∘ MergerLocal.task) (hthr t' hne), congrArg MergerLocal.partitionIdx (hthr t' hne)⟩
  have hph : (s.step t).dispenser.phase t = (m.threadStep s.global (s.threads t)).2.task.phase :=
    congrArg (MergerTask.phase ∘ MergerLocal.task) hself
  have hitem : (s.step t).dispenser.item t = (m.threadStep s.global (s.threads t)).2.partitionIdx :=
    congrArg MergerLocal.partitionIdx hself
  have hg : (s.step t).global = (m.threadStep s.global (s.threads t)).1 := rfl
  rcases m.threadStep_effect s.global (s.threads t) with
    ⟨h₁, h₂, h₃, h₄, h₅⟩ | ⟨h₁, h₂, h₃, h₄⟩ | ⟨begins, ends, h₁, h₂, h₃, h₄⟩ | ⟨h₁, h₂, h₃⟩
  · left
    refine Dispenser.ext h₃ ?_ (congrArg (List.map _) h₅) ?_ ?_
    · funext i
      exact congrArg (· = true) (h₄ i)
    · funext t'
      rcases eq_or_ne t' t with rfl | hne
      · exact hph.trans h₁
      · exact (hoths t' hne).1
    · funext t'
      rcases eq_or_ne t' t with rfl | hne
      · exact hitem.trans h₂
      · exact (hoths t' hne).2
  · refine .inr (.take hoths h₁ (hph.trans h₂) (hitem.trans h₃) ?_ ?_ ?_)
    · exact congrArg MergerGlobal.nextPartitionIdx (hg.trans h₄)
    · funext i
      exact congrArg (fun g => ((g.partitions i).scanned : Prop)) (hg.trans h₄)
    · exact congrArg (fun g => g.acquired.map AcquiredBoundaries.partition) (hg.trans h₄)
  · refine .inr (.settle hoths h₁ (hph.trans h₂) (hitem.trans h₃) ?_ ?_ ?_)
    · exact (congrArg MergerGlobal.nextPartitionIdx h₄ :)
    · funext i
      exact congrArg (fun g => ((g.partitions i).scanned : Prop)) h₄
    · refine (congrArg (fun g => g.acquired.map AcquiredBoundaries.partition) h₄).trans ?_
      exact List.map_append
  · rw [← hg] at h₃
    refine .inr (.finish hoths h₁ (hph.trans h₂) ?_ (fun i => ?_) ?_)
    · exact (congrArg MergerGlobal.nextPartitionIdx h₃ :)
    · rw [dispenser, dispenser]
      dsimp only
      rw [h₃]
      rcases eq_or_ne i (s.threads t).partitionIdx with rfl | hne
      · rw [MergerGlobal.update_partitions_self]
        exact ⟨fun _ => .inr rfl, fun _ => rfl⟩
      · rw [MergerGlobal.update_partitions_of_ne hne]
        exact ⟨.inl, fun h => h.resolve_right hne⟩
    · exact congrArg (fun g => g.acquired.map AcquiredBoundaries.partition) h₃

variable (m) in
/-- What holds of the system. -/
structure Inv (s : m.State) : Prop where
  global : m.GlobalInv s.global
  task : ∀ t, m.TaskInv s.global (s.threads t) (s.threads t).task
  dispenser : s.dispenser.Inv

/-- The begin of a partition near the one of a thread is known: those in between are held by other threads. -/
theorem Inv.exists_near {s : m.State} (h : m.Inv s) {t : Fin m.numThreads} {p : ℕ}
    (hp : p < m.numPartitions) (hnx : p ≤ s.global.nextPartitionIdx)
    (ht : (s.threads t).task.phase ≠ .idle → (s.threads t).partitionIdx = p) :
    ∃ j ≤ p, m.Near s.global p j := by
  -- The last partition before `p` whose begin is known.
  let j := Nat.findGreatest (fun i => (s.global.partitions i).beginComputed) p
  have hj : (s.global.partitions j).beginComputed :=
    Nat.findGreatest_spec (P := fun i => (s.global.partitions i).beginComputed) (Nat.zero_le p)
      h.global.begin_zero
  have hnot : ∀ k, j ≤ k → k < p → ¬s.dispenser.finished k := by
    intro k hjk hkp hf
    refine Nat.findGreatest_is_greatest (Nat.lt_succ_of_le hjk) hkp ?_
    exact (h.global.done_of_scanned k hf).2.2 (by omega)
  have hcard : p - j ≤ (univ.erase t).card := by
    refine h.dispenser.le_card hnx hnot fun t' ht' hlt => mem_erase.2 ⟨?_, mem_univ _⟩
    rintro rfl
    exact hlt.ne (ht ht')
  rw [card_erase_of_mem (mem_univ t), card_fin] at hcard
  have hpos := t.pos
  exact ⟨j, Nat.findGreatest_le p, hj, by omega⟩

theorem Inv.fresh {s : m.State} (h : m.Inv s) (t : Fin m.numThreads) : m.Fresh s.global (s.threads t) := by
  refine ⟨fun htsk hlt => ?_, fun htsk => ?_⟩
  · exact h.exists_near (t := t) hlt le_rfl fun hne => absurd (by rw [htsk]; rfl) hne
  · have hlt := h.dispenser.item_lt t (by simp [State.dispenser, htsk, MergerTask.phase])
    exact h.exists_near (t := t) (lt_of_lt_of_le hlt h.global.next_le) hlt.le fun _ => rfl

theorem Inv.step {s : m.State} (h : m.Inv s) (t : Fin m.numThreads) : m.Inv (s.step t) := by
  obtain ⟨hg, hgrows, htsk⟩ := threadStep_inv h.global t.pos (h.task t) (h.dispenser.item_lt t)
    (h.fresh t)
  refine ⟨hg, fun t' => ?_, ?_⟩
  · rcases eq_or_ne t' t with rfl | hne
    · rw [show (s.step t').threads t' = _ from update_self ..]
      exact htsk
    · rw [show (s.step t).threads t' = _ from update_of_ne hne ..]
      exact hgrows.taskInv (h.task t')
  · rcases s.step_dispenser t with heq | hstep
    · exact heq ▸ h.dispenser
    · exact h.dispenser.step hstep

theorem Inv.init : m.Inv m.init := by
  refine ⟨⟨?_, fun j hj r hr => ?_, fun j _ r _ => ?_, fun j r hr => ?_, fun j r _ => ?_, ?_,
    fun j hj => ?_, fun j hj => ?_, fun r _ d hd => ?_, fun a ha => ?_⟩, fun _ => trivial, ?_⟩
  · exact decide_eq_true (Eq.refl 0)
  · obtain rfl : j = 0 := of_decide_eq_true hj
    exact (bound_zero r).symm
  · exact (bound_zero r).symm
  · exact le_min (bound_le_count _ r) (bound_le_mul _ r)
  · exact min_le_left _ _
  · exact Nat.zero_le _
  · exact absurd hj Bool.false_ne_true
  · exact absurd hj (Nat.not_lt_zero j)
  · exact absurd hd not_mem_nil
  · exact absurd ha not_mem_nil
  · have hst : m.init.dispenser = Dispenser.start := by
      refine Dispenser.ext rfl ?_ rfl rfl rfl
      funext i
      exact Bool.false_eq_true
    exact hst ▸ Dispenser.Inv.start

/-- In every run, all of it holds at any time. -/
theorem Reachable.inv {s : m.State} (h : m.Reachable s) : m.Inv s := by
  refine WfOpt.Reachable.invariant ?_ ?_ h
  · rintro s rfl
    exact Inv.init
  · rintro s s' - hs ⟨t, rfl⟩
    exact hs.step t

end Merger

end WfOpt

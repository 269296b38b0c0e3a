import WfOpt.Sort.MergePruning
import WfOpt.Sort.MergerRuns

/-!
# What the merger has scanned

When a thread is done with a partition, it adds the tuples that it has merged, and those skipped because of merge
pruning, to what all threads have scanned (`total_scanned`), the tuples of the partitions that are done
(`MergerAccounts.Inv.total`). It is meant to return that all is finished if nothing is missing then, but compares
the value from before (`fetchAdd`), so that it never does so (`MergerAccounts.finished_never`).
-/

namespace WfOpt

open Function Finset

/-! ## Pruning loops -/

section Prune

variable {α : Type*} (extractPartition extractOrderBy : α → ℕ) (predicate : ℕ)

/-- The body of both pruning loops, for keys of any kind -/
def PruneState.pruneKey (begin : Bool) (s : PruneState) (x : α) : Bool × PruneState :=
  let partitionValue := extractPartition x
  let orderValue := extractOrderBy x
  if begin ∨ partitionValue ≠ s.partition then
    (true, ⟨partitionValue, orderValue, 1⟩)
  else if orderValue = s.orderBy then
    (true, s)
  else if s.orderByCount < predicate then
    (true, { s with orderBy := orderValue, orderByCount := s.orderByCount + 1 })
  else
    (false, s)

/-- The loop of `TemplatedMergePartition` over a run: the tuples copied, and the number of those skipped. -/
def pruneKeys : Bool → PruneState → List α → List α × ℕ
  | _, _, [] => ([], 0)
  | begin, s, x :: l =>
    match s.pruneKey extractPartition extractOrderBy predicate begin x with
    | (true, s') => (pruneKeys false s' l).map (x :: ·) id
    | (false, s') => (pruneKeys false s' l).map id (· + 1)

/-- The loop of `TemplatedScanPartition`. -/
def scanKeys : Bool → PruneState → ℕ → List α → List α × ℕ × PruneState
  | _, s, 0, _ => ([], 0, s)
  | _, s, _ + 1, [] => ([], 0, s)
  | begin, s, room + 1, x :: l =>
    match s.pruneKey extractPartition extractOrderBy predicate begin x with
    | (true, s') => (scanKeys false s' room l).map (x :: ·) (Prod.map (· + 1) id)
    | (false, s') => (scanKeys false s' (room + 1) l).map id (Prod.map (· + 1) id)

/-- Every tuple is copied or skipped. -/
theorem pruneKeys_length (l : List α) : ∀ (begin : Bool) (s : PruneState),
    (pruneKeys extractPartition extractOrderBy predicate begin s l).1.length +
      (pruneKeys extractPartition extractOrderBy predicate begin s l).2 = l.length := by
  induction l with
  | nil => exact fun _ _ => rfl
  | cons x l ih =>
    intro begin s
    rw [pruneKeys]
    rcases s.pruneKey extractPartition extractOrderBy predicate begin x with ⟨_ | _, s'⟩
    · exact congrArg (· + 1) (ih false s')
    · exact (Nat.succ_add _ _).trans (congrArg (· + 1) (ih false s'))

end Prune

/-! ## The system -/

/-- How tuples are merged: whether they are pruned, by which values and up to which rank, and whether they need not be
    sorted. -/
structure MergeMode (κ : Type*) where
  doMergePruning : Bool
  extractPartition : κ → ℕ
  extractOrderBy : κ → ℕ
  predicate : ℕ
  isIndexSort : Bool

/-- `merged_partition` with its index, and what else a thread has of it. -/
structure MergedPartition (κ : Type*) where
  merged : List κ
  mergedPartitionIndex : ℕ
  useSkip : Bool
  skippedTuples : ℕ
  counters : PruneState

/-- `atomic::fetch_add`: the value from before, and the new one -/
def fetchAdd (x n : ℕ) : ℕ × ℕ := (x, x + n)

namespace MergedPartition

variable {κ : Type*}

/-- `merged_partition_count` -/
def count (p : MergedPartition κ) : ℕ := p.merged.length

/-- `TemplatedScanPartition`: the chunk, and what the thread has afterwards. -/
def scanPartition (c : MergeMode κ) (p : MergedPartition κ) : List κ × MergedPartition κ :=
  let rest := p.merged.drop p.mergedPartitionIndex
  if p.useSkip then
    let r := scanKeys c.extractPartition c.extractOrderBy c.predicate (p.mergedPartitionIndex = 0) p.counters
      standardVectorSize rest
    (r.1, { p with mergedPartitionIndex := p.mergedPartitionIndex + r.2.1, counters := r.2.2 })
  else
    let chunk := rest.take standardVectorSize
    (chunk, { p with mergedPartitionIndex := p.mergedPartitionIndex + chunk.length })

/-- `TemplatedMaterializePartition`: all tuples are copied. -/
def materializePartition (p : MergedPartition κ) : MergedPartition κ :=
  { p with mergedPartitionIndex := max p.mergedPartitionIndex p.count }

end MergedPartition

variable {κ : Type*} [LinearOrder κ]

/-- `TemplatedMergePartition` -/
def Merger.mergePartition (m : Merger κ) (c : MergeMode κ) (begins ends : ℕ → ℕ) : MergedPartition κ :=
  let activeRuns := (List.range m.runs.numRuns).countP fun r => begins r ≠ ends r
  let copied := fun r =>
    let tuples := (List.range (ends r - begins r)).map fun i => m.runs.key r (begins r + i)
    if c.doMergePruning then pruneKeys c.extractPartition c.extractOrderBy c.predicate true {} tuples
    else (tuples, 0)
  let merged := (List.range m.runs.numRuns).flatMap fun r => (copied r).1
  { merged := if activeRuns = 1 ∨ c.isIndexSort then merged else merged.mergeSort fun x y => x ≤ y
    mergedPartitionIndex := 0
    useSkip := c.doMergePruning
    skippedTuples := ((List.range m.runs.numRuns).map fun r => (copied r).2).sum
    counters := {} }

/-- The merger with what its threads have merged, whether they are about to add it to what has been scanned, and for
    which partitions `ExecuteTask` has returned that all is finished. -/
structure MergerAccounts (m : Merger κ) where
  base : m.State
  merged : Fin m.numThreads → MergedPartition κ
  adding : Fin m.numThreads → Bool
  totalScanned : ℕ
  returnedFinished : List ℕ

namespace MergerAccounts

variable {m : Merger κ}

/-- Before the merge -/
structure Init (s : MergerAccounts m) : Prop where
  base : s.base = m.init
  adding : ∀ t, s.adding t = false
  totalScanned : s.totalScanned = 0
  returnedFinished : s.returnedFinished = []

/-- The steps of a thread: those of the merger, and in between what `ExecuteTask` does to its counters, called with a
    chunk or to materialize. An empty chunk is the last one. -/
def step (c : MergeMode κ) (s : MergerAccounts m) (t : Fin m.numThreads) (chunk : Bool) : MergerAccounts m :=
  let l := s.base.threads t
  if s.adding t then
    let (scanCountAfterAdding, totalScanned) :=
      fetchAdd s.totalScanned ((s.merged t).count + (s.merged t).skippedTuples)
    { s with
      adding := Function.update s.adding t false
      totalScanned := totalScanned
      returnedFinished := if scanCountAfterAdding = m.runs.total then s.returnedFinished ++ [l.partitionIdx]
        else s.returnedFinished }
  else
    match l.task with
    | .merge =>
      { s with
        base := s.base.step t
        merged := Function.update s.merged t (m.mergePartition c l.begins l.ends) }
    | .scan =>
      if chunk then
        let r := (s.merged t).scanPartition c
        { s with
          base := if r.1 = [] then s.base.step t else s.base
          merged := Function.update s.merged t r.2 }
      else
        { s with
          base := s.base.step t
          merged := Function.update s.merged t (s.merged t).materializePartition }
    | .setScanned => { s with base := s.base.step t, adding := Function.update s.adding t true }
    | _ => { s with base := s.base.step t }

/-- The states of all runs. -/
def Reachable (c : MergeMode κ) (s : MergerAccounts m) : Prop :=
  WfOpt.Reachable Init (fun s s' => ∃ t chunk, s' = s.step c t chunk) s

/-- A partition is done: it has been scanned, and what was scanned of it has been added. -/
def Completed (s : MergerAccounts m) (p : ℕ) : Prop := (s.base.global.partitions p).scanned = true ∧
    ∀ t, s.adding t = true → (s.base.threads t).partitionIdx ≠ p

instance (s : MergerAccounts m) (p : ℕ) : Decidable (s.Completed p) := inferInstanceAs (Decidable (_ ∧ _))

end MergerAccounts

/-! ## Tuples of partitions -/

namespace Merger

variable {m : Merger κ}

variable (m) in
/-- The number of tuples of a partition. -/
def tuplesOf (p : ℕ) : ℕ := ∑ r ∈ range m.runs.numRuns, (m.bound (p + 1) r - m.bound p r)

theorem sum_bound (p : ℕ) : ∑ r ∈ range m.runs.numRuns, m.bound p r = min (p * m.partitionSize) m.runs.total :=
  RunKeys.sum_cut (min_le_right _ _)

theorem tuplesOf_eq (p : ℕ) : m.tuplesOf p =
    min ((p + 1) * m.partitionSize) m.runs.total - min (p * m.partitionSize) m.runs.total := by
  rw [tuplesOf, sum_tsub_distrib _ fun r _ => bound_mono (Nat.le_succ p) r, sum_bound, sum_bound]

theorem tuplesOf_pos {p : ℕ} (hp : p < m.numPartitions) : 0 < m.tuplesOf p := by
  have hlt := lt_numPartitions_iff.1 hp
  have hsz := m.partitionSize_pos
  rw [tuplesOf_eq, Nat.add_mul, min_eq_left hlt.le]
  omega

theorem sum_tuplesOf : ∑ p ∈ range m.numPartitions, m.tuplesOf p = m.runs.total := by
  have hmono : Monotone fun p => min (p * m.partitionSize) m.runs.total := fun p p' h =>
    min_le_min_right _ (Nat.mul_le_mul_right _ h)
  have hlst : m.runs.total ≤ m.numPartitions * m.partitionSize :=
    not_lt.1 fun h => lt_irrefl _ (lt_numPartitions_iff.2 h)
  rw [sum_congr rfl fun p _ => tuplesOf_eq p, sum_range_tsub hmono, min_eq_right hlst, Nat.zero_mul, Nat.zero_min,
    Nat.sub_zero]

theorem mergePartition_count (c : MergeMode κ) (begins ends : ℕ → ℕ) :
    (m.mergePartition c begins ends).count + (m.mergePartition c begins ends).skippedTuples =
      ∑ r ∈ range m.runs.numRuns, (ends r - begins r) := by
  obtain ⟨copied, hcop⟩ : ∃ copied : ℕ → List κ × ℕ, copied = fun r =>
      let tuples := (List.range (ends r - begins r)).map fun i => m.runs.key r (begins r + i)
      if c.doMergePruning then pruneKeys c.extractPartition c.extractOrderBy c.predicate true {} tuples
      else (tuples, 0) := ⟨_, rfl⟩
  have hlen : ∀ r, (copied r).1.length + (copied r).2 = ends r - begins r := by
    intro r
    rw [hcop]
    dsimp only
    by_cases hprune : c.doMergePruning = true
    · rw [if_pos hprune, pruneKeys_length, List.length_map, List.length_range]
    · rw [if_neg hprune, List.length_map, List.length_range, Nat.add_zero]
  have hsum : ∀ l : List ℕ, (l.flatMap fun r => (copied r).1).length + (l.map fun r => (copied r).2).sum =
      (l.map fun r => ends r - begins r).sum := by
    intro l
    induction l with
    | nil => rfl
    | cons r l ih =>
      rw [List.flatMap_cons, List.length_append, List.map_cons, List.map_cons, List.sum_cons, List.sum_cons,
        ← hlen r, ← ih]
      exact Nat.add_add_add_comm ..
  have hcnt : (m.mergePartition c begins ends).count =
      ((List.range m.runs.numRuns).flatMap fun r => (copied r).1).length := by
    rw [hcop, MergedPartition.count, mergePartition]
    split
    · rfl
    · exact List.length_mergeSort _
  have hskipped : (m.mergePartition c begins ends).skippedTuples =
      ((List.range m.runs.numRuns).map fun r => (copied r).2).sum := by
    rw [hcop]
    rfl
  rw [hcnt, hskipped, hsum]
  rfl

end Merger

/-! ## What threads have merged -/

/-- The thread has merged its partition. -/
def MergerTask.Merged : MergerTask → Prop
  | .scan | .tryDestroy | .destroyScan _ | .destroyRun _ _ | .setScanned => True
  | _ => False

theorem MergerTask.Merged.phase {task : MergerTask} (h : task.Merged) : task.phase = .settled := by
  cases task with
  | scan | tryDestroy | destroyScan e | destroyRun e r | setScanned => rfl
  | _ => exact h.elim

namespace Merger

variable {m : Merger κ} {g : MergerGlobal} {l : MergerLocal}

theorem merged_of_threadStep (h : (m.threadStep g l).2.task.Merged) :
    (l.task = .merge ∨ l.task.Merged) ∧ (m.threadStep g l).2.partitionIdx = l.partitionIdx := by
  rw [threadStep] at h ⊢
  cases htsk : l.task with
  | finished =>
    rw [htsk] at h
    dsimp only at h
    split_ifs at h
    · rw [htsk] at h
      exact h.elim
    · exact h.elim
  | readBoundaries c | findHint c prev =>
    rw [htsk] at h
    simp only [hintStep] at h
    split_ifs at h <;> exact h.elim
  | compute c | probe c path =>
    rw [htsk] at h
    simp only [computeStep] at h
    split_ifs at h <;> exact h.elim
  | checkNext c =>
    rw [htsk] at h
    simp only [publishStep] at h
    split_ifs at h <;> exact h.elim
  | publishEnd c =>
    rw [htsk] at h
    cases c <;> exact h.elim
  | acquire =>
    rw [htsk] at h
    split_ifs at h <;> exact h.elim
  | copyHint c prev | publishNext c | copyBoundaries =>
    rw [htsk] at h
    exact h.elim
  | merge => exact ⟨.inl rfl, rfl⟩
  | scan => exact ⟨.inr trivial, rfl⟩
  | setScanned =>
    rw [htsk] at h
    exact h.elim
  | tryDestroy | destroyScan e | destroyRun e r =>
    refine ⟨.inr trivial, ?_⟩
    simp only [destroyStep]
    split_ifs <;> rfl

/-- Only at its end, a thread marks its partition as scanned. -/
theorem threadStep_scanned (h : l.task ≠ .setScanned) (p : ℕ) :
    ((m.threadStep g l).1.partitions p).scanned = (g.partitions p).scanned := by
  cases m.threadStep_effect g l with
  | quiet _ _ _ hscan _ => exact hscan p
  | take _ _ _ hg => rw [hg]
  | settle _ _ _ _ _ hg => rw [hg]
  | finish hph hidle _ =>
    rw [threadStep] at hidle
    cases htsk : l.task with
    | merge | scan =>
      rw [htsk] at hidle
      cases hidle
    | tryDestroy | destroyScan e | destroyRun e r =>
      rw [htsk] at hidle
      simp only [destroyStep] at hidle
      split_ifs at hidle <;> cases hidle
    | setScanned => exact absurd htsk h
    | _ =>
      rw [htsk] at hph
      cases hph

end Merger

/-! ## What is kept to -/

namespace MergerAccounts

variable {m : Merger κ} {c : MergeMode κ} {s : MergerAccounts m}

/-- What holds at any time. -/
structure Inv (s : MergerAccounts m) : Prop where
  base : m.Inv s.base
  counts : ∀ t, (s.base.threads t).task.Merged ∨ s.adding t = true →
    (s.merged t).count + (s.merged t).skippedTuples = m.tuplesOf (s.base.threads t).partitionIdx
  adding : ∀ t, s.adding t = true → (s.base.threads t).task = .finished ∧
    (s.base.global.partitions (s.base.threads t).partitionIdx).scanned = true
  distinct : ∀ t t', s.adding t = true → s.adding t' = true →
    (s.base.threads t).partitionIdx = (s.base.threads t').partitionIdx → t = t'
  total : s.totalScanned = ∑ p ∈ range m.numPartitions, if s.Completed p then m.tuplesOf p else 0
  returned : s.returnedFinished = []

theorem Inv.init (h : Init s) : s.Inv where
  base := h.base ▸ Merger.Inv.init
  counts t ht := by
    rw [h.base, h.adding] at ht
    exact ht.elim False.elim (fun h => nomatch h)
  adding t ht := nomatch (h.adding t).symm.trans ht
  distinct t _ ht := nomatch (h.adding t).symm.trans ht
  total := by
    rw [h.totalScanned]
    refine (sum_eq_zero fun p _ => if_neg fun hp => ?_).symm
    rw [Completed, h.base] at hp
    exact nomatch hp.1
  returned := h.returnedFinished

theorem Inv.lt_numPartitions (h : s.Inv) {p : ℕ} (hp : (s.base.global.partitions p).scanned = true) :
    p < m.numPartitions :=
  (h.base.global.done_of_scanned p hp).1.trans_le h.base.global.next_le

variable {t : Fin m.numThreads}

theorem Inv.total_add (h : s.Inv) (ht : s.adding t = true) :
    s.totalScanned + m.tuplesOf (s.base.threads t).partitionIdx = ∑ p ∈ range m.numPartitions,
        if s.Completed p ∨ p = (s.base.threads t).partitionIdx then m.tuplesOf p else 0 := by
  have hnot : ¬s.Completed (s.base.threads t).partitionIdx := fun hp => hp.2 t ht rfl
  have hmem := mem_range.2 (h.lt_numPartitions (h.adding t ht).2)
  rw [h.total, ← sum_erase_add _ _ hmem, ← sum_erase_add (range m.numPartitions) _ hmem, if_neg hnot,
    if_pos (.inr rfl), Nat.add_zero]
  refine congrArg (· + _) (sum_congr rfl fun p hp => if_congr ?_ rfl rfl)
  exact (or_iff_left (ne_of_mem_erase hp)).symm

/-- A thread adds the tuples of its partition. As they were missing, it does not find that all is finished. -/
theorem Inv.add (h : s.Inv) (ht : s.adding t = true) (chunk : Bool) : (s.step c t chunk).Inv := by
  have hcnt := h.counts t (.inr ht)
  have hlt : s.totalScanned ≠ m.runs.total := by
    have hpos := Merger.tuplesOf_pos (h.lt_numPartitions (h.adding t ht).2)
    have hle := h.total_add ht
    have hsum : (∑ p ∈ range m.numPartitions,
        if s.Completed p ∨ p = (s.base.threads t).partitionIdx then m.tuplesOf p else 0) ≤ m.runs.total := by
      rw [← m.sum_tuplesOf]
      refine sum_le_sum fun p _ => ?_
      split
      · exact le_rfl
      · exact Nat.zero_le _
    omega
  have hstep : s.step c t chunk = { s with
        adding := update s.adding t false
        totalScanned := s.totalScanned + m.tuplesOf (s.base.threads t).partitionIdx } := by
    rw [step, if_pos ht]
    simp only [fetchAdd, hcnt, if_neg hlt]
  have hold : ∀ t', update s.adding t false t' = true → t' ≠ t ∧ s.adding t' = true := by
    intro t' ht'
    rcases eq_or_ne t' t with rfl | hne
    · rw [update_self] at ht'
      exact nomatch ht'
    · rw [update_of_ne hne] at ht'
      exact ⟨hne, ht'⟩
  rw [hstep]
  refine ⟨h.base, fun t' ht' => h.counts t' (ht'.imp_right fun ht' => (hold t' ht').2),
    fun t' ht' => h.adding t' (hold t' ht').2,
    fun t₁ t₂ h₁ h₂ => h.distinct t₁ t₂ (hold t₁ h₁).2 (hold t₂ h₂).2, ?_, h.returned⟩
  refine (h.total_add ht).trans (sum_congr rfl fun p _ => if_congr ⟨?_, fun hp => ?_⟩ rfl rfl)
  · rintro (hp | rfl)
    · exact ⟨hp.1, fun t' ht' => hp.2 t' (hold t' ht').2⟩
    · refine ⟨(h.adding t ht).2, fun t' ht' heq => ?_⟩
      exact (hold t' ht').1 (h.distinct t' t (hold t' ht').2 ht heq)
  · by_cases hpt : p = (s.base.threads t).partitionIdx
    · exact .inr hpt
    · refine .inl ⟨hp.1, fun t' ht' heq => ?_⟩
      rcases eq_or_ne t' t with rfl | hne
      · exact hpt heq.symm
      · exact hp.2 t' ((update_of_ne hne ..).trans ht') heq

/-- A thread takes a step of the merger before the last one. -/
theorem Inv.baseStep (h : s.Inv) (ht : s.adding t = false)
    (hset : (s.base.threads t).task ≠ .setScanned) {p : MergedPartition κ}
    (hp : ((s.base.step t).threads t).task.Merged →
      p.count + p.skippedTuples = m.tuplesOf (s.base.threads t).partitionIdx) :
    Inv { s with base := s.base.step t, merged := Function.update s.merged t p } := by
  have hself : (s.base.step t).threads t = (m.threadStep s.base.global (s.base.threads t)).2 := update_self ..
  have hoth : ∀ t', t' ≠ t → (s.base.step t).threads t' = s.base.threads t' := fun t' hne => update_of_ne hne ..
  have hne : ∀ t', s.adding t' = true → t' ≠ t := by
    rintro t' ht' rfl
    exact nomatch ht.symm.trans ht'
  have hscan : ∀ p, ((s.base.step t).global.partitions p).scanned = (s.base.global.partitions p).scanned :=
    Merger.threadStep_scanned hset
  refine ⟨h.base.step t, fun t' ht' => ?_, fun t' ht' => ?_, fun t₁ t₂ h₁ h₂ => ?_, ?_, h.returned⟩
  · dsimp only at ht' ⊢
    rcases eq_or_ne t' t with rfl | hne
    · have hmrg := ht'.resolve_right (by rw [ht]; exact Bool.false_ne_true)
      rw [update_self, hp hmrg, hself]
      rw [hself] at hmrg
      rw [(Merger.merged_of_threadStep hmrg).2]
    · rw [update_of_ne hne, hoth t' hne]
      rw [hoth t' hne] at ht'
      exact h.counts t' ht'
  · rw [hoth t' (hne t' ht'), hscan]
    exact h.adding t' ht'
  · rw [hoth t₁ (hne t₁ h₁), hoth t₂ (hne t₂ h₂)]
    exact h.distinct t₁ t₂ h₁ h₂
  · refine h.total.trans (sum_congr rfl fun p _ => if_congr (and_congr ?_ ?_) rfl rfl)
    · rw [hscan]
    · refine forall₂_congr fun t' ht' => ?_
      rw [hoth t' (hne t' ht')]

/-- A thread marks its partition as scanned, and has to add its tuples. -/
theorem Inv.setScanned (h : s.Inv) (ht : s.adding t = false) (htsk : (s.base.threads t).task = .setScanned) :
    Inv { s with base := s.base.step t, adding := Function.update s.adding t true } := by
  have hstep : m.threadStep s.base.global (s.base.threads t) =
      (s.base.global.update (s.base.threads t).partitionIdx fun p => { p with scanned := true },
        { s.base.threads t with task := .finished }) := by
    rw [Merger.threadStep, htsk]
  have hself : (s.base.step t).threads t = { s.base.threads t with task := .finished } :=
    (update_self ..).trans (congrArg Prod.snd hstep)
  have hoth : ∀ t', t' ≠ t → (s.base.step t).threads t' = s.base.threads t' := fun t' hne => update_of_ne hne ..
  have hglob : (s.base.step t).global =
      s.base.global.update (s.base.threads t).partitionIdx fun p => { p with scanned := true } :=
    congrArg Prod.fst hstep
  have hidx : ((s.base.step t).threads t).partitionIdx = (s.base.threads t).partitionIdx := by
    rw [hself]
  have hscan : ((s.base.step t).global.partitions (s.base.threads t).partitionIdx).scanned = true := by
    rw [hglob, MergerGlobal.update_partitions_self]
  have hscan' : ∀ p, p ≠ (s.base.threads t).partitionIdx →
      (s.base.step t).global.partitions p = s.base.global.partitions p := fun p hne => by
    rw [hglob, MergerGlobal.update_partitions_of_ne hne]
  -- The partition of the thread has not been scanned before, so that no other thread is about to add it.
  have hfr : ¬(s.base.global.partitions (s.base.threads t).partitionIdx).scanned = true :=
    h.base.dispenser.not_finished t (by simp [Merger.State.dispenser, htsk, MergerTask.phase])
  have hidx' : ∀ t', s.adding t' = true →
      (s.base.threads t').partitionIdx ≠ (s.base.threads t).partitionIdx := fun t' ht' heq =>
    hfr (heq ▸ (h.adding t' ht').2)
  have hcs : ∀ t', update s.adding t true t' = true → t' = t ∨ t' ≠ t ∧ s.adding t' = true := by
    intro t' ht'
    refine or_iff_not_imp_left.2 fun hne => ⟨hne, ?_⟩
    rwa [update_of_ne hne] at ht'
  refine ⟨h.base.step t, fun t' ht' => ?_, fun t' ht' => ?_, fun t₁ t₂ h₁ h₂ heq => ?_, ?_, h.returned⟩
  · dsimp only at ht' ⊢
    rcases eq_or_ne t' t with rfl | hne
    · rw [hidx]
      refine h.counts t' (.inl ?_)
      rw [htsk]
      trivial
    · rw [hoth t' hne, update_of_ne hne] at ht'
      rw [hoth t' hne]
      exact h.counts t' ht'
  · rcases hcs t' ht' with rfl | ⟨hne, ht'⟩
    · rw [hidx, hself]
      exact ⟨rfl, hscan⟩
    · rw [hoth t' hne, hscan' _ (hidx' t' ht')]
      exact h.adding t' ht'
  · rcases hcs t₁ h₁ with rfl | ⟨hne₁, hadd₁⟩ <;> rcases hcs t₂ h₂ with rfl | ⟨hne₂, hadd₂⟩
    · rfl
    · rw [hidx, hoth t₂ hne₂] at heq
      exact absurd heq.symm (hidx' t₂ hadd₂)
    · rw [hidx, hoth t₁ hne₁] at heq
      exact absurd heq (hidx' t₁ hadd₁)
    · rw [hoth t₁ hne₁, hoth t₂ hne₂] at heq
      exact h.distinct t₁ t₂ hadd₁ hadd₂ heq
  · refine h.total.trans (sum_congr rfl fun p _ => if_congr ⟨fun hp => ?_, fun hp => ?_⟩ rfl rfl)
    · have hpt : p ≠ (s.base.threads t).partitionIdx := by
        rintro rfl
        exact hfr hp.1
      refine ⟨(congrArg MergePartition.scanned (hscan' p hpt)).trans hp.1, fun t' ht' => ?_⟩
      rcases hcs t' ht' with rfl | ⟨hne, ht'⟩
      · rw [hidx]
        exact hpt.symm
      · rw [hoth t' hne]
        exact hp.2 t' ht'
    · have hpt : p ≠ (s.base.threads t).partitionIdx := by
        rintro rfl
        exact hp.2 t (update_self ..) hidx
      refine ⟨(congrArg MergePartition.scanned (hscan' p hpt)).symm.trans hp.1, fun t' ht' => ?_⟩
      rcases eq_or_ne t' t with rfl | hne
      · exact absurd (ht.symm.trans ht') Bool.false_ne_true
      · have := hp.2 t' ((update_of_ne hne ..).trans ht')
        rwa [hoth t' hne] at this

/-- Every step keeps to it. -/
theorem Inv.step (h : s.Inv) (t : Fin m.numThreads) (chunk : Bool) : (s.step c t chunk).Inv := by
  cases ht : s.adding t with
  | true => exact h.add ht chunk
  | false =>
    rw [MergerAccounts.step, if_neg (by rw [ht]; exact Bool.false_ne_true)]
    have hkept : ∀ p : MergedPartition κ, p.count + p.skippedTuples = (s.merged t).count + (s.merged t).skippedTuples →
        ((s.base.threads t).task ≠ .merge) → ((s.base.step t).threads t).task.Merged →
        p.count + p.skippedTuples = m.tuplesOf (s.base.threads t).partitionIdx := by
      intro p hp hne hmrg
      rw [show (s.base.step t).threads t = _ from update_self ..] at hmrg
      rw [hp]
      exact h.counts t (.inl ((Merger.merged_of_threadStep hmrg).1.resolve_left hne))
    cases htsk : (s.base.threads t).task with
    | merge =>
      refine h.baseStep ht (by simp [htsk]) fun _ => ?_
      have hinv := h.base.task t
      rw [htsk] at hinv
      rw [Merger.mergePartition_count, Merger.tuplesOf]
      refine sum_congr rfl fun r hr => ?_
      rw [hinv.2.1 r (mem_range.1 hr), hinv.2.2 r (mem_range.1 hr)]
    | scan =>
      dsimp only
      split
      · -- A chunk is scanned, and the thread goes on if there is nothing in it.
        obtain ⟨r, hr⟩ : ∃ r, r = (s.merged t).scanPartition c := ⟨_, rfl⟩
        have hsm : r.2.count + r.2.skippedTuples = (s.merged t).count + (s.merged t).skippedTuples := by
          rw [hr, MergedPartition.scanPartition]
          split <;> rfl
        rw [← hr]
        split
        · exact h.baseStep ht (by simp [htsk]) (hkept _ hsm (by simp [htsk]))
        · refine ⟨h.base, fun t' ht' => ?_, h.adding, h.distinct, h.total, h.returned⟩
          dsimp only
          rcases eq_or_ne t' t with rfl | hne
          · rw [update_self, hsm]
            exact h.counts t' ht'
          · rw [update_of_ne hne]
            exact h.counts t' ht'
      · exact h.baseStep ht (by simp [htsk]) (hkept _ rfl (by simp [htsk]))
    | setScanned => exact h.setScanned ht htsk
    | _ =>
      have := h.baseStep ht (by simp [htsk]) (hkept _ rfl (by simp [htsk]))
      rwa [update_eq_self] at this

/-- In every run, all of it holds at any time. -/
theorem Reachable.inv (h : s.Reachable c) : s.Inv := by
  refine WfOpt.Reachable.invariant ?_ ?_ h
  · exact fun s => Inv.init
  · rintro s s' - hs ⟨t, chunk, rfl⟩
    exact hs.step t chunk

/-- What has been scanned are the tuples of the partitions that are done. -/
theorem Inv.total_iff (h : s.Inv) : s.totalScanned ≤ m.runs.total ∧
    (s.totalScanned = m.runs.total ↔ ∀ p < m.numPartitions, s.Completed p) := by
  have hle : ∀ p ∈ range m.numPartitions, (if s.Completed p then m.tuplesOf p else 0) ≤ m.tuplesOf p := by
    intro p _
    split
    · exact le_rfl
    · exact Nat.zero_le _
  rw [h.total, ← m.sum_tuplesOf, sum_eq_sum_iff_of_le hle]
  refine ⟨sum_le_sum hle, fun hall p hp => ?_, fun hall p hp => if_pos (hall p (mem_range.1 hp))⟩
  by_contra hnot
  have := hall p (mem_range.2 hp)
  rw [if_neg hnot] at this
  exact (Merger.tuplesOf_pos hp).ne this

/-- However the threads interleave, with pruning or without: what a thread has merged and skipped are the tuples
    between the boundaries of its partition, and what has been scanned are all tuples exactly when all partitions are
    done. But no call of `ExecuteTask` ever returns that all is finished. -/
theorem finished_never (h : s.Reachable c) : (∀ t, (s.base.threads t).task.Merged ∨ s.adding t = true →
      ∃ a ∈ s.base.global.acquired, a.partition = (s.base.threads t).partitionIdx ∧
        (s.merged t).count + (s.merged t).skippedTuples = ∑ r ∈ range m.runs.numRuns, (a.ends r - a.begins r)) ∧
    s.totalScanned ≤ m.runs.total ∧
    (s.totalScanned = m.runs.total ↔ ∀ p < m.numPartitions, s.Completed p) ∧
    s.returnedFinished = [] := by
  have hinv := h.inv
  refine ⟨fun t ht => ?_, hinv.total_iff.1, hinv.total_iff.2, hinv.returned⟩
  have hmem : (s.base.threads t).partitionIdx ∈ s.base.dispenser.settled := by
    rw [hinv.base.dispenser.mem_settled]
    rcases ht with ht | ht
    · exact .inr ⟨t, ht.phase, rfl⟩
    · exact .inl (hinv.adding t ht).2
  obtain ⟨a, ha, hp⟩ := List.mem_map.1 hmem
  obtain ⟨hbegs, hends, -⟩ := hinv.base.global.acquired a ha
  refine ⟨a, ha, hp, ?_⟩
  rw [hinv.counts t ht, Merger.tuplesOf, ← hp]
  refine sum_congr rfl fun r hr => ?_
  rw [hbegs r (mem_range.1 hr), hends r (mem_range.1 hr)]

/-- Two tuples of a run, each in a partition of its own. -/
def singles : Merger ℕ where
  runs :=
    { numRuns := 1
      count := fun _ => 2
      key := fun _ i => i
      sorted := fun _ _ _ _ h _ => h }
  partitionSize := 1
  numThreads := 2
  external := false
  tuplesPerBlock := 1
  partitionSize_pos := by decide

def unpruned : MergeMode ℕ where
  doMergePruning := false
  extractPartition := id
  extractOrderBy := id
  predicate := 1
  isIndexSort := false

/-- Two threads take turns to materialize the partitions. -/
def materialized (n : ℕ) : MergerAccounts singles :=
  (List.replicate n [⟨0, by decide⟩, ⟨1, by decide⟩]).flatten.foldl (fun s t => s.step unpruned t false)
    ⟨singles.init, fun _ => ⟨[], 0, false, 0, {}⟩, fun _ => false, 0, []⟩

theorem Reachable.foldl (h : s.Reachable c) (l : List (Fin m.numThreads)) :
    (l.foldl (fun s t => s.step c t false) s).Reachable c := by
  induction l generalizing s with
  | nil => exact h
  | cons t l ih => exact ih (.step h ⟨t, false, rfl⟩)

/-- All partitions have been materialized, but no call has returned that all is finished. -/
theorem materialized_not_finished :
    (materialized 22).Reachable unpruned ∧ (∀ p < singles.numPartitions, (materialized 22).Completed p) ∧
      (materialized 22).totalScanned = singles.runs.total ∧
      ¬∃ p, (materialized 22).returnedFinished = [p] := by
  refine ⟨Reachable.foldl (.start ⟨rfl, fun _ => rfl, rfl, rfl⟩) _, by decide +kernel, by decide +kernel, ?_⟩
  rw [show (materialized 22).returnedFinished = [] by decide +kernel]
  rintro ⟨p, hp⟩
  exact nomatch hp

theorem finished_never_materialized :
    (materialized 22).totalScanned = 2 ∧ (materialized 22).returnedFinished = [] := by
  have hrch : (materialized 22).Reachable unpruned :=
    Reachable.foldl (.start ⟨rfl, fun _ => rfl, rfl, rfl⟩) _
  exact ⟨by decide +kernel, (finished_never hrch).2.2.2⟩

end MergerAccounts

end WfOpt

import WfOpt.Lib.Ledger
import WfOpt.Window.Source

/-!
# What the source of the window operator keeps to

The tasks of a group are numbered. Those handed out are the first ones, and each of
them is held by the thread it was handed to, until that thread has finished it
(`WindowSource.State.ledger`). What a group counts are the blocks its threads have
processed, which are those up to where the tasks that are held have got
(`WindowSource.GroupInv`).
-/

namespace WfOpt

open List Function Option

namespace WindowGroupStage

theorem toIdx_ofIdx {n : ℕ} (h : n < 4) : (ofIdx n).toIdx = n := by
  match n, h with
  | 0, _ | 1, _ | 2, _ | 3, _ => rfl

theorem toIdx_injective {σ τ : WindowGroupStage} (h : σ.toIdx = τ.toIdx) : σ = τ := by
  cases σ <;> cases τ <;> first | rfl | exact absurd h (by decide)

end WindowGroupStage

namespace WindowSource

variable {w : WindowSource} {g : ℕ}

/-! ## The tasks of a group -/

theorem perThread_pos_of_block {b : ℕ} (hb : b < w.blocks g) : 0 < w.perThread := by
  refine w.perThread_pos fun hnil => ?_
  rw [blocks, chunks, hnil] at hb
  exact absurd hb (Nat.not_lt_zero b)

theorem lt_threadCount_iff {i : ℕ} : i < w.threadCount g ↔ i * w.perThread < w.blocks g := by
  rcases Nat.eq_zero_or_pos w.perThread with hz | hpos
  · have hblks : w.blocks g = 0 := by
      by_contra hne
      exact (perThread_pos_of_block (Nat.pos_of_ne_zero hne)).ne' hz
    rw [threadCount, hz, Nat.div_zero, hblks, Nat.mul_zero, iff_false_intro (Nat.not_lt_zero i),
      iff_false_intro (lt_irrefl 0)]
  · rw [threadCount, ← Nat.add_one_le_iff, Nat.le_div_iff_mul_le hpos, Nat.add_mul]
    omega

theorem div_lt_threadCount {b : ℕ} (hb : b < w.blocks g) : b / w.perThread < w.threadCount g :=
  lt_threadCount_iff.2 ((Nat.div_mul_le_self _ _).trans_lt hb)

theorem taskCount_eq : w.taskCount g = w.threadCount g * 4 := rfl

/-- The number of a task, with its group. -/
def taskNo (w : WindowSource) (task : WindowTask) : ℕ × ℕ :=
  (task.groupIdx, task.stage.toIdx * w.threadCount task.groupIdx + task.threadIdx)

/-- The number of the task a block is in, in a stage. -/
def blockNo (w : WindowSource) (g : ℕ) (σ : WindowGroupStage) (b : ℕ) : ℕ :=
  σ.toIdx * w.threadCount g + b / w.perThread

variable {k : ℕ}

theorem stage_task (hk : k < w.taskCount g) : (WindowHashGroup.task w g k).stage.toIdx = k / w.threadCount g :=
  WindowGroupStage.toIdx_ofIdx (Nat.div_lt_of_lt_mul hk)

theorem threadIdx_task_lt (hk : k < w.taskCount g) : k % w.threadCount g < w.threadCount g := by
  refine Nat.mod_lt _ (Nat.pos_of_ne_zero fun hz => ?_)
  rw [taskCount_eq, hz, Nat.zero_mul] at hk
  exact absurd hk (Nat.not_lt_zero k)

theorem taskNo_task (hk : k < w.taskCount g) : w.taskNo (WindowHashGroup.task w g k) = (g, k) := by
  refine Prod.ext rfl ?_
  rw [taskNo, stage_task hk]
  exact Nat.div_add_mod' k _

/-- A task is for some blocks. -/
theorem beginIdx_lt_endIdx (hk : k < w.taskCount g) :
    (WindowHashGroup.task w g k).beginIdx < (WindowHashGroup.task w g k).endIdx := by
  have hlt := lt_threadCount_iff.1 (threadIdx_task_lt hk)
  exact lt_min (Nat.lt_add_of_pos_right (perThread_pos_of_block hlt)) hlt

theorem mem_range_iff {i b : ℕ} : (i * w.perThread ≤ b ∧ b < min (i * w.perThread + w.perThread) (w.blocks g)) ↔
      b < w.blocks g ∧ b / w.perThread = i := by
  rcases Nat.eq_zero_or_pos w.perThread with hz | hpos
  · rw [hz, Nat.mul_zero, lt_min_iff]
    refine ⟨fun h => absurd h.2.1 (Nat.not_lt_zero b), fun h => ?_⟩
    exact absurd (perThread_pos_of_block h.1) hz.not_gt
  · rw [lt_min_iff, Nat.div_eq_iff hpos, ← and_assoc, and_comm]
    omega

theorem mem_task_iff (hk : k < w.taskCount g) {b : ℕ} :
    ((WindowHashGroup.task w g k).beginIdx ≤ b ∧ b < (WindowHashGroup.task w g k).endIdx) ↔
      b < w.blocks g ∧ w.blockNo g (WindowHashGroup.task w g k).stage b = k := by
  refine mem_range_iff.trans (and_congr_right fun hb => ?_)
  rw [blockNo, stage_task hk]
  have := Nat.div_add_mod' k (w.threadCount g)
  omega

/-! ## Invariants -/

/-- All blocks have been processed in a stage, or, when rows are sunk, all blocks that
    have rows. -/
def Complete (w : WindowSource) (g : ℕ) (G : WindowHashGroup) (σ : WindowGroupStage) : Prop :=
  ∀ b < w.blocks g, (σ = .sink → w.blockSize g b ≠ 0) → b ∈ G.processed σ

/-- What holds of a group. -/
structure GroupInv (w : WindowSource) (s : State) (g : ℕ) : Prop where
  next_le : (s.global.groups g).nextTask ≤ w.taskCount g
  handed_task : ∀ e ∈ s.global.handed, e.2.groupIdx = g →
    ∃ k < (s.global.groups g).nextTask, e.2 = WindowHashGroup.task w g k
  handed_all : ∀ k < (s.global.groups g).nextTask, ∃ t, (t, WindowHashGroup.task w g k) ∈ s.global.handed
  stage_le : ∀ k < (s.global.groups g).nextTask, k / w.threadCount g ≤ (s.global.groups g).stage.toIdx
  complete : ∀ σ : WindowGroupStage, σ.toIdx < (s.global.groups g).stage.toIdx →
    w.Complete g (s.global.groups g) σ
  masked_eq : (s.global.groups g).masked = ((s.global.groups g).processed .mask).length
  sunk_eq : (s.global.groups g).sunk = (((s.global.groups g).processed .sink).map (w.blockSize g)).sum
  finalized_eq : (s.global.groups g).finalized = ((s.global.groups g).processed .finalize).length
  processed_nodup : ∀ σ, ((s.global.groups g).processed σ).Nodup
  processed_no : ∀ σ, ∀ b ∈ (s.global.groups g).processed σ,
    b < w.blocks g ∧ w.blockNo g σ b < (s.global.groups g).nextTask
  /-- A task that is held has got to its begin. -/
  held : ∀ t task, (s.threads t).task = some task → task.groupIdx = g →
    ∃ k < (s.global.groups g).nextTask,
      task = { WindowHashGroup.task w g k with beginIdx := task.beginIdx } ∧
      (WindowHashGroup.task w g k).beginIdx ≤ task.beginIdx ∧ task.beginIdx ≤ task.endIdx ∧
      ∀ b < w.blocks g, w.blockNo g task.stage b = k →
        (b ∈ (s.global.groups g).processed task.stage ↔ b < task.beginIdx)
  /-- A task that is finished has got to its end. -/
  finished : ∀ e ∈ s.global.finished, e.2.groupIdx = g → ∃ k < (s.global.groups g).nextTask,
    e.2 = { WindowHashGroup.task w g k with beginIdx := (WindowHashGroup.task w g k).endIdx } ∧
    ∀ b < w.blocks g, w.blockNo g e.2.stage b = k → b ∈ (s.global.groups g).processed e.2.stage
  completed_eq : (s.global.groups g).completed =
    (s.global.finished.filter fun e => e.2.groupIdx = g).length
  released : (s.global.groups g).released → w.taskCount g ≤ (s.global.groups g).completed

/-- The tasks handed out, finished and held, by their numbers. -/
def State.ledger (w : WindowSource) (s : State) : Ledger ℕ (ℕ × ℕ) where
  handed := s.global.handed.map fun e => (e.1, w.taskNo e.2)
  returned := s.global.finished.map fun e => (e.1, w.taskNo e.2)
  held t := (s.threads t).task.map w.taskNo

/-- What holds of the system. -/
structure Inv (w : WindowSource) (s : State) : Prop where
  group : ∀ g, w.GroupInv s g
  ledger : (s.ledger w).Inv
  trying : ∀ t, (s.threads t).phase ≠ .ready → (s.threads t).phase ≠ .failed →
    (s.threads t).task = none
  handed_group : ∀ e ∈ s.global.handed, e.2.groupIdx ∈ w.groups.take s.global.nextGroup
  active : ∀ g ∈ s.global.activeGroups,
    g ∈ w.groups.take s.global.nextGroup ∧ (s.global.groups g).released = false
  released_group : ∀ g, (s.global.groups g).released → g ∈ w.groups.take s.global.nextGroup
  started_eq : s.global.started = (w.groups.map fun g => (s.global.groups g).nextTask).sum

/-- Different blocks, as many as there are, are all blocks. -/
theorem mem_of_length_le {l : List ℕ} {n b : ℕ} (hnd : l.Nodup) (hlt : ∀ b ∈ l, b < n)
    (hlen : n ≤ l.length) (hb : b < n) : b ∈ l := by
  have hsub : l.toFinset ⊆ Finset.range n := fun b hb =>
    Finset.mem_range.2 (hlt b (List.mem_toFinset.1 hb))
  have heq := Finset.eq_of_subset_of_card_le hsub (by
    rwa [Finset.card_range, toFinset_card_of_nodup hnd])
  exact List.mem_toFinset.1 (heq ▸ Finset.mem_range.2 hb)

/-- Different blocks that have all rows are all blocks that have any. -/
theorem mem_of_sum_eq {l : List ℕ} {n b : ℕ} {f : ℕ → ℕ} (hnd : l.Nodup) (hlt : ∀ b ∈ l, b < n)
    (hsum : (l.map f).sum = ∑ b ∈ Finset.range n, f b) (hb : b < n) (hne : f b ≠ 0) : b ∈ l := by
  by_contra hnot
  have hsub : l.toFinset ⊆ (Finset.range n).erase b := fun c hc => by
    rw [List.mem_toFinset] at hc
    exact Finset.mem_erase.2 ⟨fun h => hnot (h ▸ hc), Finset.mem_range.2 (hlt c hc)⟩
  have hle := Finset.sum_le_sum_of_subset (f := f) hsub
  rw [sum_toFinset f hnd, hsum, ← Finset.sum_erase_add _ _ (Finset.mem_range.2 hb)] at hle
  omega

theorem sum_eq_sum_getD (l : List ℕ) : l.sum = ∑ b ∈ Finset.range l.length, l.getD b 0 := by
  induction l with
  | nil => rfl
  | cons n l ih =>
    rw [sum_cons, length_cons, Finset.sum_range_succ', ih, Nat.add_comm]
    rfl

/-- A step of a thread that is about one group. -/
structure About (s : State) (t g : ℕ) (s' : State) : Prop where
  groups : ∀ g', g' ≠ g → s'.global.groups g' = s.global.groups g'
  threads : ∀ t', t' ≠ t → s'.threads t' = s.threads t'
  task : ∀ task, (s.threads t).task = some task ∨ (s'.threads t).task = some task → task.groupIdx = g
  handed : ∃ l, s'.global.handed = s.global.handed ++ l ∧ ∀ e ∈ l, e.2.groupIdx = g
  finished : ∃ l, s'.global.finished = s.global.finished ++ l ∧ ∀ e ∈ l, e.2.groupIdx = g

variable {s s' : State} {t : ℕ}

theorem About.groupInv {g' : ℕ} (h : About s t g s') (hne : g' ≠ g) (hg : w.GroupInv s g') : w.GroupInv s' g' := by
  have hG := h.groups g' hne
  obtain ⟨lh, hhand, hlh⟩ := h.handed
  obtain ⟨lf, hfsd, hlf⟩ := h.finished
  have htsk : ∀ t' task, (s'.threads t').task = some task → task.groupIdx = g' →
      (s.threads t').task = some task := by
    intro t' task ht' htg
    rcases eq_or_ne t' t with rfl | hne'
    · exact absurd (htg.symm.trans (h.task task (.inr ht'))) hne
    · rwa [h.threads t' hne'] at ht'
  have hmem : ∀ {l m : List (ℕ × WindowTask)}, (∀ e ∈ m, e.2.groupIdx = g) → ∀ e ∈ l ++ m,
      e.2.groupIdx = g' → e ∈ l := by
    intro l m hm e he heg
    exact (mem_append.1 he).resolve_right fun hem => hne (heg.symm.trans (hm e hem))
  refine ⟨?_, fun e he heg => ?_, fun k hk => ?_, ?_, ?_, ?_, ?_, ?_, ?_, ?_,
    fun t' task ht' htg => ?_, fun e he heg => ?_, ?_, ?_⟩
  · rw [hG]
    exact hg.next_le
  · rw [hhand] at he
    rw [hG]
    exact hg.handed_task e (hmem hlh e he heg) heg
  · rw [hG] at hk
    obtain ⟨t', ht'⟩ := hg.handed_all k hk
    exact ⟨t', hhand ▸ mem_append_left _ ht'⟩
  · rw [hG]
    exact hg.stage_le
  · rw [hG]
    exact hg.complete
  · rw [hG]
    exact hg.masked_eq
  · rw [hG]
    exact hg.sunk_eq
  · rw [hG]
    exact hg.finalized_eq
  · rw [hG]
    exact hg.processed_nodup
  · rw [hG]
    exact hg.processed_no
  · rw [hG]
    exact hg.held t' task (htsk t' task ht' htg) htg
  · rw [hfsd] at he
    rw [hG]
    exact hg.finished e (hmem hlf e he heg) heg
  · have hnil : lf.filter (fun e => e.2.groupIdx = g') = [] := by
      refine filter_eq_nil_iff.2 fun e he => ?_
      rw [hlf e he, decide_eq_true_eq]
      exact fun heq => hne heq.symm
    rw [hG, hfsd, filter_append, hnil, append_nil]
    exact hg.completed_eq
  · rw [hG]
    exact hg.released

/-! ## The steps of a thread -/

/-- A group only moves on from a stage that is complete. -/
theorem GroupInv.prepare_cases (h : w.GroupInv s g) :
    ∃ σ, (s.global.groups g).tryPrepareNextStage w g = { s.global.groups g with stage := σ } ∧
      (s.global.groups g).stage.toIdx ≤ σ.toIdx ∧
      ∀ τ : WindowGroupStage, τ.toIdx < σ.toIdx → w.Complete g (s.global.groups g) τ := by
  have hlt := fun σ b hb => (h.processed_no σ b hb).1
  -- The stages before the one moved to are those before the current one, and itself.
  have hsucc : ∀ σ σ' : WindowGroupStage, (s.global.groups g).stage = σ → σ'.toIdx = σ.toIdx + 1 →
      w.Complete g (s.global.groups g) σ →
      ∀ τ : WindowGroupStage, τ.toIdx < σ'.toIdx → w.Complete g (s.global.groups g) τ := by
    intro σ σ' hσ hσ' hc τ hτ
    rw [hσ'] at hτ
    rcases Nat.lt_succ_iff_lt_or_eq.1 hτ with hτ | hτ
    · exact h.complete τ (hσ ▸ hτ)
    · exact WindowGroupStage.toIdx_injective hτ ▸ hc
  have hsm : ∃ σ, s.global.groups g = { s.global.groups g with stage := σ } ∧
      (s.global.groups g).stage.toIdx ≤ σ.toIdx ∧
      ∀ τ : WindowGroupStage, τ.toIdx < σ.toIdx → w.Complete g (s.global.groups g) τ :=
    ⟨(s.global.groups g).stage, rfl, le_rfl, h.complete⟩
  cases hstg : (s.global.groups g).stage with
  | mask =>
    simp only [WindowHashGroup.tryPrepareNextStage, hstg]
    split_ifs with hcnt
    · refine ⟨.sink, rfl, Nat.zero_le _, hsucc .mask .sink hstg rfl fun b hb _ => ?_⟩
      exact mem_of_length_le (h.processed_nodup .mask) (hlt .mask) (h.masked_eq ▸ hcnt.ge) hb
    · exact hstg ▸ hsm
  | sink =>
    simp only [WindowHashGroup.tryPrepareNextStage, hstg]
    split_ifs with hcnt
    · refine ⟨.finalize, rfl, by decide, hsucc .sink .finalize hstg rfl fun b hb hne => ?_⟩
      refine mem_of_sum_eq (h.processed_nodup .sink) (hlt .sink) ?_ hb (hne rfl)
      exact h.sunk_eq.symm.trans (hcnt.trans (sum_eq_sum_getD _))
    · exact hstg ▸ hsm
  | finalize =>
    simp only [WindowHashGroup.tryPrepareNextStage, hstg]
    split_ifs with hcnt
    · refine ⟨.getData, rfl, by decide, hsucc .finalize .getData hstg rfl fun b hb _ => ?_⟩
      exact mem_of_length_le (h.processed_nodup .finalize) (hlt .finalize)
        (h.finalized_eq ▸ hcnt.ge) hb
    · exact hstg ▸ hsm
  | getData | done =>
    simp only [WindowHashGroup.tryPrepareNextStage, hstg]
    exact hstg ▸ hsm

theorem GroupInv.set_stage (h : w.GroupInv s g) {σ : WindowGroupStage}
    (hG : s'.global.groups g = { s.global.groups g with stage := σ })
    (hle : (s.global.groups g).stage.toIdx ≤ σ.toIdx)
    (hcomplete : ∀ τ : WindowGroupStage, τ.toIdx < σ.toIdx → w.Complete g (s.global.groups g) τ)
    (hhand : s'.global.handed = s.global.handed) (hfsd : s'.global.finished = s.global.finished)
    (htsk : ∀ t, (s'.threads t).task = (s.threads t).task) : w.GroupInv s' g := by
  refine ⟨?_, ?_, ?_, ?_, ?_, ?_, ?_, ?_, ?_, ?_, fun t task => ?_, ?_, ?_, ?_⟩
  · rw [hG]
    exact h.next_le
  · rw [hG, hhand]
    exact h.handed_task
  · rw [hG, hhand]
    exact h.handed_all
  · rw [hG]
    exact fun k hk => (h.stage_le k hk).trans hle
  · rw [hG]
    exact hcomplete
  · rw [hG]
    exact h.masked_eq
  · rw [hG]
    exact h.sunk_eq
  · rw [hG]
    exact h.finalized_eq
  · rw [hG]
    exact h.processed_nodup
  · rw [hG]
    exact h.processed_no
  · rw [hG, htsk t]
    exact h.held t task
  · rw [hG, hfsd]
    exact h.finished
  · rw [hG, hfsd]
    exact h.completed_eq
  · rw [hG]
    exact h.released

theorem GroupInv.hand (h : w.GroupInv s g) (hlt : (s.global.groups g).nextTask < w.taskCount g)
    (hstg : (WindowHashGroup.task w g (s.global.groups g).nextTask).stage = (s.global.groups g).stage)
    (hG : s'.global.groups g = { s.global.groups g with nextTask := (s.global.groups g).nextTask + 1 })
    (hhand : s'.global.handed = s.global.handed ++ [(t, WindowHashGroup.task w g (s.global.groups g).nextTask)])
    (hfsd : s'.global.finished = s.global.finished)
    (hthreads : ∀ t', t' ≠ t → (s'.threads t').task = (s.threads t').task)
    (hthr : (s'.threads t).task = some (WindowHashGroup.task w g (s.global.groups g).nextTask)) :
    w.GroupInv s' g := by
  refine ⟨?_, fun e he heg => ?_, fun k hk => ?_, fun k hk => ?_, ?_, ?_, ?_, ?_, ?_, fun σ b hb => ?_,
    fun t' task ht' htg => ?_, fun e he heg => ?_, ?_, ?_⟩
  · rw [hG]
    exact hlt
  · rw [hhand, mem_append, mem_singleton] at he
    rw [hG]
    rcases he with he | rfl
    · obtain ⟨k, hk, heq⟩ := h.handed_task e he heg
      exact ⟨k, Nat.lt_succ_of_lt hk, heq⟩
    · exact ⟨_, Nat.lt_succ_self _, rfl⟩
  · rw [hG] at hk
    rw [hhand]
    rcases Nat.lt_succ_iff_lt_or_eq.1 hk with hk | rfl
    · obtain ⟨t', ht'⟩ := h.handed_all k hk
      exact ⟨t', mem_append_left _ ht'⟩
    · exact ⟨t, mem_append_right _ (mem_singleton_self _)⟩
  · rw [hG] at hk ⊢
    rcases Nat.lt_succ_iff_lt_or_eq.1 hk with hk | rfl
    · exact h.stage_le k hk
    · exact (stage_task hlt).symm.trans_le (hstg ▸ le_rfl)
  · rw [hG]
    exact h.complete
  · rw [hG]
    exact h.masked_eq
  · rw [hG]
    exact h.sunk_eq
  · rw [hG]
    exact h.finalized_eq
  · rw [hG]
    exact h.processed_nodup
  · rw [hG] at hb ⊢
    obtain ⟨h₁, h₂⟩ := h.processed_no σ b hb
    exact ⟨h₁, Nat.lt_succ_of_lt h₂⟩
  · rw [hG]
    rcases eq_or_ne t' t with rfl | hne
    · rw [hthr] at ht'
      obtain rfl := some.inj ht'
      refine ⟨_, Nat.lt_succ_self _, rfl, le_rfl, (beginIdx_lt_endIdx hlt).le, fun b hb hno => ?_⟩
      -- None of its blocks has been processed.
      constructor
      · intro hmem
        exact absurd hno (h.processed_no _ b hmem).2.ne
      · intro hbeg
        exact absurd ((mem_task_iff hlt).2 ⟨hb, hno⟩).1 (not_le.2 hbeg)
    · rw [hthreads t' hne] at ht'
      obtain ⟨k, hk, hrst⟩ := h.held t' task ht' htg
      exact ⟨k, Nat.lt_succ_of_lt hk, hrst⟩
  · rw [hfsd] at he
    rw [hG]
    obtain ⟨k, hk, hrst⟩ := h.finished e he heg
    exact ⟨k, Nat.lt_succ_of_lt hk, hrst⟩
  · rw [hG, hfsd]
    exact h.completed_eq
  · rw [hG]
    exact h.released

variable {task : WindowTask}

theorem GroupInv.finish (h : w.GroupInv s g) (htsk : (s.threads t).task = some task) (hg : task.groupIdx = g)
    (hend : task.beginIdx = task.endIdx) {b : Bool}
    (hb : b = true → w.taskCount g ≤ (s.global.groups g).completed + 1)
    (hG : s'.global.groups g =
      { s.global.groups g with completed := (s.global.groups g).completed + 1, released := b })
    (hhand : s'.global.handed = s.global.handed)
    (hfsd : s'.global.finished = s.global.finished ++ [(t, task)])
    (hthreads : ∀ t', t' ≠ t → (s'.threads t').task = (s.threads t').task)
    (hthr : (s'.threads t).task = none) : w.GroupInv s' g := by
  refine ⟨?_, ?_, ?_, ?_, ?_, ?_, ?_, ?_, ?_, ?_, fun t' task' ht' htg => ?_, fun e he heg => ?_, ?_, fun hr => ?_⟩
  · rw [hG]
    exact h.next_le
  · rw [hG, hhand]
    exact h.handed_task
  · rw [hG, hhand]
    exact h.handed_all
  · rw [hG]
    exact h.stage_le
  · rw [hG]
    exact h.complete
  · rw [hG]
    exact h.masked_eq
  · rw [hG]
    exact h.sunk_eq
  · rw [hG]
    exact h.finalized_eq
  · rw [hG]
    exact h.processed_nodup
  · rw [hG]
    exact h.processed_no
  · have hne : t' ≠ t := by
      rintro rfl
      rw [hthr] at ht'
      exact absurd ht' (by simp)
    rw [hthreads t' hne] at ht'
    rw [hG]
    exact h.held t' task' ht' htg
  · rw [hfsd, mem_append, mem_singleton] at he
    rw [hG]
    rcases he with he | rfl
    · exact h.finished e he heg
    · -- The task has got to its end, so its blocks have been processed.
      obtain ⟨k, hk, heq, -, -, hiff⟩ := h.held t task htsk hg
      have hk' := hk.trans_le h.next_le
      have hstg : task.stage = (WindowHashGroup.task w g k).stage := by rw [heq]
      have hendIdx : task.endIdx = (WindowHashGroup.task w g k).endIdx := by rw [heq]
      refine ⟨k, hk, ?_, fun b hb hno => (hiff b hb hno).2 ?_⟩
      · rw [← hendIdx, ← hend]
        exact heq
      · rw [hend, hendIdx]
        exact ((mem_task_iff hk').2 ⟨hb, hstg ▸ hno⟩).2
  · rw [hG, hfsd, filter_append, length_append]
    simp [h.completed_eq, hg]
  · rw [hG] at hr ⊢
    exact hb hr

theorem GroupInv.process (h : w.GroupInv s g) (hledg : (s.ledger w).Inv) {n : ℕ}
    (htsk : (s.threads t).task = some task) (hg : task.groupIdx = g)
    (hn : task.beginIdx + n ≤ task.endIdx) {masked sunk finalized : ℕ}
    (hG : s'.global.groups g = { (s.global.groups g).process task.stage (List.range' task.beginIdx n) with
        masked := masked, sunk := sunk, finalized := finalized })
    (hmasked : masked = ((s'.global.groups g).processed .mask).length)
    (hsunk : sunk = (((s'.global.groups g).processed .sink).map (w.blockSize g)).sum)
    (hfind : finalized = ((s'.global.groups g).processed .finalize).length)
    (hhand : s'.global.handed = s.global.handed) (hfsd : s'.global.finished = s.global.finished)
    (hthreads : ∀ t', t' ≠ t → (s'.threads t').task = (s.threads t').task)
    (hthr : (s'.threads t).task = some { task with beginIdx := task.beginIdx + n }) :
    w.GroupInv s' g := by
  obtain ⟨k, hk, heq, hbeg, hend, hiff⟩ := h.held t task htsk hg
  have hk' := hk.trans_le h.next_le
  have hstg : task.stage = (WindowHashGroup.task w g k).stage := by rw [heq]
  have hendIdx : task.endIdx = (WindowHashGroup.task w g k).endIdx := by rw [heq]
  -- The blocks processed are blocks of the task, after those it has processed before.
  have hnew : ∀ b ∈ range' task.beginIdx n, b < w.blocks g ∧ w.blockNo g task.stage b = k := by
    intro b hb
    obtain ⟨h₁, h₂⟩ := mem_range'_1.1 hb
    rw [hstg]
    exact (mem_task_iff hk').1 ⟨hbeg.trans h₁, hendIdx ▸ h₂.trans_le hn⟩
  have hproc : ∀ σ, (s'.global.groups g).processed σ =
      if σ = task.stage then (s.global.groups g).processed σ ++ range' task.beginIdx n
      else (s.global.groups g).processed σ := by
    intro σ
    rw [hG]
    simp only [WindowHashGroup.process, update_apply]
    split_ifs with hσ
    · rw [hσ]
    · rfl
  have hsub : ∀ σ, ∀ b ∈ (s.global.groups g).processed σ, b ∈ (s'.global.groups g).processed σ := by
    intro σ b hb
    rw [hproc]
    split_ifs
    · exact mem_append_left _ hb
    · exact hb
  refine ⟨?_, ?_, ?_, ?_, fun σ hσ b hb hne => ?_, ?_, ?_, ?_, fun σ => ?_, fun σ b hb => ?_,
    fun t' task' ht' htg => ?_, fun e he heg => ?_, ?_, ?_⟩
  · rw [hG]
    exact h.next_le
  · rw [hG, hhand]
    exact h.handed_task
  · rw [hG, hhand]
    exact h.handed_all
  · rw [hG]
    exact h.stage_le
  · rw [hG] at hσ
    exact hsub σ b (h.complete σ hσ b hb hne)
  · exact (congrArg WindowHashGroup.masked hG).trans hmasked
  · exact (congrArg WindowHashGroup.sunk hG).trans hsunk
  · exact (congrArg WindowHashGroup.finalized hG).trans hfind
  · rw [hproc]
    split_ifs with hσ
    · refine nodup_append.2 ⟨h.processed_nodup σ, nodup_range', ?_⟩
      rintro b hb c hc rfl
      obtain ⟨h₁, h₂⟩ := hnew b hc
      exact absurd ((hiff b h₁ h₂).1 (hσ ▸ hb)) (not_lt.2 (mem_range'_1.1 hc).1)
    · exact h.processed_nodup σ
  · have hnx : (s'.global.groups g).nextTask = (s.global.groups g).nextTask := by rw [hG]; rfl
    rw [hproc] at hb
    rw [hnx]
    split_ifs at hb with hσ
    · rcases mem_append.1 hb with hb | hb
      · exact h.processed_no σ b hb
      · obtain ⟨h₁, h₂⟩ := hnew b hb
        exact ⟨h₁, hσ ▸ h₂.trans_lt hk⟩
    · exact h.processed_no σ b hb
  · have hnx : (s'.global.groups g).nextTask = (s.global.groups g).nextTask := by rw [hG]; rfl
    rw [hnx]
    rcases eq_or_ne t' t with rfl | hne
    · rw [hthr] at ht'
      obtain rfl := some.inj ht'
      refine ⟨k, hk, by rw [heq], hbeg.trans (Nat.le_add_right _ _), hn, fun b hb hno => ?_⟩
      dsimp only at hno ⊢
      rw [hproc, if_pos rfl, mem_append, mem_range'_1, hiff b hb hno]
      omega
    · rw [hthreads t' hne] at ht'
      obtain ⟨k', hk', heq', hbeg', hend', hiff'⟩ := h.held t' task' ht' htg
      refine ⟨k', hk', heq', hbeg', hend', fun b hb hno => ?_⟩
      rw [← hiff' b hb hno, hproc]
      split_ifs with hσ
      · rw [mem_append, or_iff_left]
        intro hmem
        -- The tasks would have the same number, and be held by the same thread.
        have hkk : k' = k := by rw [← hno, hσ, (hnew b hmem).2]
        refine hne (hledg.unique (x := (g, k)) ?_ ?_)
        · rw [State.ledger]
          dsimp only
          rw [ht', map_some, heq', hkk]
          exact congrArg some (taskNo_task (hk.trans_le h.next_le))
        · rw [State.ledger]
          dsimp only
          rw [htsk, map_some, heq]
          exact congrArg some (taskNo_task (hk.trans_le h.next_le))
      · exact .rfl
  · have hnx : (s'.global.groups g).nextTask = (s.global.groups g).nextTask := by rw [hG]; rfl
    rw [hfsd] at he
    rw [hnx]
    obtain ⟨k', hk', heq', hall⟩ := h.finished e he heg
    exact ⟨k', hk', heq', fun b hb hno => hsub _ b (hall b hb hno)⟩
  · rw [hG, hfsd]
    exact h.completed_eq
  · rw [hG]
    exact h.released

/-- What a step of `ExecuteTask` does: the next blocks of the task are processed, and
    counted. -/
theorem executeTask_spec {S : SourceGlobal} (hlt : task.beginIdx < task.endIdx) (hstg : task.stage ≠ .done)
    (hmasked : (S.groups task.groupIdx).masked = ((S.groups task.groupIdx).processed .mask).length)
    (hsunk : (S.groups task.groupIdx).sunk =
      (((S.groups task.groupIdx).processed .sink).map (w.blockSize task.groupIdx)).sum)
    (hfind : (S.groups task.groupIdx).finalized = ((S.groups task.groupIdx).processed .finalize).length) :
    ∃ n masked sunk finalized G, task.beginIdx + n ≤ task.endIdx ∧
      S.executeTask w task = (S.setGroup task.groupIdx G, { task with beginIdx := task.beginIdx + n }) ∧
      G = { (S.groups task.groupIdx).process task.stage (List.range' task.beginIdx n) with
        masked := masked, sunk := sunk, finalized := finalized } ∧
      masked = (G.processed .mask).length ∧
      sunk = ((G.processed .sink).map (w.blockSize task.groupIdx)).sum ∧
      finalized = (G.processed .finalize).length := by
  have hsub : task.beginIdx + (task.endIdx - task.beginIdx) = task.endIdx := Nat.add_sub_cancel' hlt.le
  cases h : task.stage with
  | mask =>
    refine ⟨task.endIdx - task.beginIdx,
      (S.groups task.groupIdx).masked + (task.endIdx - task.beginIdx), (S.groups task.groupIdx).sunk,
      (S.groups task.groupIdx).finalized, _, hsub.le, ?_, rfl, ?_, hsunk, hfind⟩
    · simp only [SourceGlobal.executeTask, h, hsub]
      rfl
    · simp [WindowHashGroup.process, hmasked]
  | sink =>
    refine ⟨1, (S.groups task.groupIdx).masked,
      (S.groups task.groupIdx).sunk + w.blockSize task.groupIdx task.beginIdx,
      (S.groups task.groupIdx).finalized, _, hlt, ?_, rfl, hmasked, ?_, hfind⟩
    · simp only [SourceGlobal.executeTask, h]
      rfl
    · simp [WindowHashGroup.process, hsunk]
  | finalize =>
    refine ⟨task.endIdx - task.beginIdx, (S.groups task.groupIdx).masked, (S.groups task.groupIdx).sunk,
      (S.groups task.groupIdx).finalized + (task.endIdx - task.beginIdx), _, hsub.le, ?_, rfl, hmasked,
      hsunk, ?_⟩
    · simp only [SourceGlobal.executeTask, h, hsub]
      rfl
    · simp [WindowHashGroup.process, hfind]
  | getData =>
    refine ⟨1, _, _, _, _, hlt, ?_, rfl, hmasked, hsunk, hfind⟩
    simp only [SourceGlobal.executeTask, h]
    rfl
  | done => exact absurd h hstg

theorem State.set_threads_self (s : State) (t : ℕ) (r : SourceGlobal × SourceLocal) : (s.set t r).threads t = r.2 :=
  update_self ..

theorem State.set_threads_of_ne (s : State) {t t' : ℕ} (r : SourceGlobal × SourceLocal) (h : t' ≠ t) :
    (s.set t r).threads t' = s.threads t' :=
  update_of_ne h ..

/-- The state after a step of the thread `t`. -/
theorem State.exists_set (s : State) (t : ℕ) (global : SourceGlobal) (thread : SourceLocal) :
    ∃ s', s' = s.set t (global, thread) ∧ s'.threads t = thread ∧ (∀ t', t' ≠ t → s'.threads t' = s.threads t') ∧
      s'.global = global :=
  ⟨_, rfl, s.set_threads_self t _, fun _ hne => s.set_threads_of_ne _ hne, rfl⟩

theorem About.forall_groupInv (h : w.Inv s) (habout : About s t g s') (hg : w.GroupInv s' g) :
    ∀ g', w.GroupInv s' g' := by
  intro g'
  rcases eq_or_ne g' g with rfl | hne
  · exact hg
  · exact habout.groupInv hne (h.group g')

theorem Inv.of_about (h : w.Inv s) (habout : About s t g s') (hg : w.GroupInv s' g) (hledg : (s'.ledger w).Inv)
    (htrying : (s'.threads t).phase ≠ .ready → (s'.threads t).phase ≠ .failed → (s'.threads t).task = none)
    (hnx : s'.global.nextGroup = s.global.nextGroup)
    (hact : s'.global.activeGroups = s.global.activeGroups)
    (hstd : s'.global.started = s.global.started)
    (hreleased : (s'.global.groups g).released = (s.global.groups g).released)
    (hnextTask : (s'.global.groups g).nextTask = (s.global.groups g).nextTask)
    (hhand : s'.global.handed = s.global.handed) : w.Inv s' := by
  have hrel : ∀ g', (s'.global.groups g').released = (s.global.groups g').released := by
    intro g'
    rcases eq_or_ne g' g with rfl | hne
    · exact hreleased
    · rw [habout.groups g' hne]
  have htsk : ∀ g', (s'.global.groups g').nextTask = (s.global.groups g').nextTask := by
    intro g'
    rcases eq_or_ne g' g with rfl | hne
    · exact hnextTask
    · rw [habout.groups g' hne]
  refine ⟨habout.forall_groupInv h hg, hledg, fun t' => ?_, ?_, ?_, ?_, ?_⟩
  · rcases eq_or_ne t' t with rfl | hne
    · exact htrying
    · rw [habout.threads t' hne]
      exact h.trying t'
  · rw [hhand, hnx]
    exact h.handed_group
  · rw [hact, hnx]
    exact fun g' hg' => ⟨(h.active g' hg').1, (hrel g').trans (h.active g' hg').2⟩
  · intro g' hg'
    rw [hnx]
    exact h.released_group g' ((hrel g').symm.trans hg')
  · rw [hstd, h.started_eq]
    simp only [htsk]

theorem Inv.execute (h : w.Inv s) (htsk : (s.threads t).task = some task) (hne : task.beginIdx ≠ task.endIdx) :
    w.Inv (s.set t ((s.global.executeTask w task).1, ⟨some (s.global.executeTask w task).2, .ready⟩)) := by
  have hg := h.group task.groupIdx
  obtain ⟨k, hk, heq, -, hend, -⟩ := hg.held t task htsk rfl
  have hstg : task.stage ≠ .done := by
    intro hdone
    have hidx : task.stage.toIdx = k / w.threadCount task.groupIdx := by
      rw [heq]
      exact stage_task (hk.trans_le hg.next_le)
    have hlt : k / w.threadCount task.groupIdx < 4 := Nat.div_lt_of_lt_mul (hk.trans_le hg.next_le)
    rw [hdone] at hidx
    exact absurd hidx hlt.ne'
  obtain ⟨n, masked, sunk, finalized, G, hn, hexec, hG, hm, hs, hf⟩ :=
    executeTask_spec (lt_of_le_of_ne hend hne) hstg hg.masked_eq hg.sunk_eq hg.finalized_eq
  rw [hexec]
  obtain ⟨s', hs', hself, hoth, hglob⟩ := s.exists_set t (s.global.setGroup task.groupIdx G)
    ⟨some { task with beginIdx := task.beginIdx + n }, .ready⟩
  have hGroup : s'.global.groups task.groupIdx = G := by
    rw [hglob]
    exact update_self ..
  have hgrps : ∀ g', g' ≠ task.groupIdx → s'.global.groups g' = s.global.groups g' := by
    intro g' hne
    rw [hglob]
    exact update_of_ne hne ..
  rw [← hs']
  refine h.of_about (t := t) (g := task.groupIdx)
    ⟨hgrps, hoth, fun task' h => ?_, ⟨[], ?_, by simp⟩, ⟨[], ?_, by simp⟩⟩ ?_ ?_ ?_ ?_ ?_ ?_ ?_ ?_ ?_
  · rcases h with h | h
    · rw [some.inj (htsk.symm.trans h)]
    · rw [hself] at h
      rw [← some.inj h]
  iterate 2
    · rw [hglob]
      exact (append_nil _).symm
  · refine hg.process h.ledger htsk rfl hn (hGroup.trans hG) (hGroup ▸ hm) (hGroup ▸ hs) (hGroup ▸ hf)
      ?_ ?_ (fun t' hne => by rw [hoth t' hne]) (by rw [hself])
    · rw [hglob]
      rfl
    · rw [hglob]
      rfl
  · -- The tasks are held as before.
    have hledg : s'.ledger w = s.ledger w := by
      simp only [State.ledger, hglob, SourceGlobal.setGroup, Ledger.mk.injEq, true_and]
      funext t'
      rcases eq_or_ne t' t with rfl | hne
      · rw [hself, htsk]
        rfl
      · rw [hoth t' hne]
    exact hledg ▸ h.ledger
  · rw [hself]
    exact fun h _ => absurd rfl h
  iterate 3
    · rw [hglob]
      rfl
  · rw [hGroup, hG]
    rfl
  · rw [hGroup, hG]
    rfl
  · rw [hglob]
    rfl

/-- The lock, and what a thread is up to, do not matter. -/
theorem Inv.congr (h : w.Inv s) (hgrps : s'.global.groups = s.global.groups)
    (hact : s'.global.activeGroups = s.global.activeGroups)
    (hnx : s'.global.nextGroup = s.global.nextGroup)
    (hstd : s'.global.started = s.global.started)
    (hhand : s'.global.handed = s.global.handed)
    (hfsd : s'.global.finished = s.global.finished)
    (htsk : ∀ t, (s'.threads t).task = (s.threads t).task)
    (htrying : ∀ t, (s'.threads t).phase ≠ .ready → (s'.threads t).phase ≠ .failed →
      (s'.threads t).task = none) : w.Inv s' := by
  refine ⟨fun g => ?_, ?_, htrying, ?_, ?_, ?_, ?_⟩
  · refine (h.group g).set_stage (σ := (s.global.groups g).stage) ?_ le_rfl (h.group g).complete
      hhand hfsd htsk
    rw [hgrps]
  · have hledg : s'.ledger w = s.ledger w := by
      simp only [State.ledger, hhand, hfsd, htsk]
    exact hledg ▸ h.ledger
  · rw [hhand, hnx]
    exact h.handed_group
  · rw [hact, hnx, hgrps]
    exact h.active
  · rw [hnx, hgrps]
    exact h.released_group
  · rw [hstd, hgrps]
    exact h.started_eq

theorem Inv.finish (h : w.Inv s) (hfin : (s.threads t).taskFinished = true) :
    w.Inv (s.set t (s.global.finishTask w t (s.threads t).task, ⟨none, .ready⟩)) := by
  obtain ⟨s', hs', hself, hoth, hglob⟩ := s.exists_set t (s.global.finishTask w t (s.threads t).task) ⟨none, .ready⟩
  have htrying : ∀ t', (s'.threads t').phase ≠ .ready → (s'.threads t').phase ≠ .failed →
      (s'.threads t').task = none := by
    intro t'
    rcases eq_or_ne t' t with rfl | hne
    · rw [hself]
      exact fun h _ => absurd rfl h
    · rw [hoth t' hne]
      exact h.trying t'
  rw [← hs']
  cases htsk : (s.threads t).task with
  | none =>
    rw [htsk] at hglob
    have hs : s'.global = s.global := hglob
    refine h.congr (by rw [hs]) (by rw [hs]) (by rw [hs]) (by rw [hs]) (by rw [hs]) (by rw [hs])
      (fun t' => ?_) htrying
    rcases eq_or_ne t' t with rfl | hne
    · rw [hself, htsk]
    · rw [hoth t' hne]
  | some task =>
    rw [htsk] at hglob
    have hend : task.beginIdx = task.endIdx := by
      rw [SourceLocal.taskFinished, htsk] at hfin
      exact of_decide_eq_true hfin
    have hG : s'.global.groups task.groupIdx = { s.global.groups task.groupIdx with
        completed := (s.global.groups task.groupIdx).completed + 1
        released := decide (w.taskCount task.groupIdx ≤ (s.global.groups task.groupIdx).completed + 1) ||
          (s.global.groups task.groupIdx).released } := by
      rw [hglob]
      exact update_self ..
    have hgrps : ∀ g', g' ≠ task.groupIdx → s'.global.groups g' = s.global.groups g' := by
      intro g' hne
      rw [hglob]
      exact update_of_ne hne ..
    have hfsd : s'.global.finished = s.global.finished ++ [(t, task)] := by
      rw [hglob]
      rfl
    have hhand : s'.global.handed = s.global.handed := by
      rw [hglob]
      rfl
    have habout : About s t task.groupIdx s' := by
      refine ⟨hgrps, hoth, fun task' h => ?_, ⟨[], ?_, by simp⟩, ⟨_, hfsd, ?_⟩⟩
      · rcases h with h | h
        · rw [some.inj (htsk.symm.trans h)]
        · rw [hself] at h
          exact absurd h (by simp)
      · rw [hhand, append_nil]
      · intro e he
        rw [mem_singleton.1 he]
    have hnx : s'.global.nextGroup = s.global.nextGroup := by
      rw [hglob]
      rfl
    refine ⟨habout.forall_groupInv h ?_, ?_, htrying, ?_, fun g hg => ?_, fun g hg => ?_, ?_⟩
    · refine (h.group task.groupIdx).finish htsk rfl hend (fun hb => ?_) hG hhand hfsd
        (fun t' hne => by rw [hoth t' hne]) (by rw [hself])
      rcases Bool.or_eq_true_iff.1 hb with hb | hb
      · exact of_decide_eq_true hb
      · exact ((h.group task.groupIdx).released hb).trans (Nat.le_succ _)
    · have hledg : s'.ledger w = ⟨(s.ledger w).handed, (s.ledger w).returned ++ [(t, w.taskNo task)],
          update (s.ledger w).held t none⟩ := by
        simp only [State.ledger, hhand, hfsd, map_append, map_singleton, Ledger.mk.injEq, true_and]
        funext t'
        rcases eq_or_ne t' t with rfl | hne
        · rw [hself, update_self]
          rfl
        · rw [hoth t' hne, update_of_ne hne]
      rw [hledg]
      exact h.ledger.giveBack (by simp [State.ledger, htsk])
    · rw [hhand, hnx]
      exact h.handed_group
    · -- A group that is released is not active any more.
      have hmem : g ∈ s.global.activeGroups ∧ (g = task.groupIdx →
          ¬w.taskCount task.groupIdx ≤ (s.global.groups task.groupIdx).completed + 1) := by
        rw [hglob] at hg
        simp only [SourceGlobal.finishTask] at hg
        split_ifs at hg with hlst
        · obtain ⟨h₁, h₂⟩ := mem_filter.1 hg
          exact ⟨h₁, fun heq => absurd heq (of_decide_eq_true h₂)⟩
        · exact ⟨hg, fun _ => hlst⟩
      obtain ⟨h₁, h₂⟩ := h.active g hmem.1
      rw [hnx]
      refine ⟨h₁, ?_⟩
      rcases eq_or_ne g task.groupIdx with rfl | hne
      · rw [hG]
        simp only [h₂, Bool.or_false, decide_eq_false (hmem.2 rfl)]
      · rw [hgrps g hne]
        exact h₂
    · rw [hnx]
      rcases eq_or_ne g task.groupIdx with rfl | hne
      · obtain ⟨e, he, heq⟩ := List.mem_map.1
          (h.ledger.held_mem t (w.taskNo task) (by simp [State.ledger, htsk])).1
        have hgrp : e.2.groupIdx = task.groupIdx := congrArg (fun p => p.2.1) heq
        exact hgrp ▸ h.handed_group e he
      · exact h.released_group g (hgrps g hne ▸ hg)
    · have htasks : ∀ g, (s'.global.groups g).nextTask = (s.global.groups g).nextTask := by
        intro g
        rcases eq_or_ne g task.groupIdx with rfl | hne
        · rw [hG]
        · rw [hgrps g hne]
      have hstd : s'.global.started = s.global.started := by
        rw [hglob]
        rfl
      rw [hstd, h.started_eq]
      simp only [htasks]

theorem groups_nodup : w.groups.Nodup := by
  have hperm := mergeSort_perm ((range w.hashGroups.length).filterMap fun groupIdx =>
    (w.hashGroups.getD groupIdx none).map fun chunks => (chunks.length, groupIdx))
      fun a b => decide (b.1 < a.1 ∨ (b.1 = a.1 ∧ b.2 ≤ a.2))
  refine (hperm.map Prod.snd).nodup_iff.2 ?_
  rw [map_filterMap]
  refine nodup_range.filterMap fun i j k hi hj => ?_
  simp only [Option.map_map, mem_def, map_eq_some_iff, comp_apply] at hi hj
  obtain ⟨-, -, rfl⟩ := hi
  obtain ⟨-, -, rfl⟩ := hj
  rfl

theorem tryNextTask_eq_some {G G' : WindowHashGroup} (h : G.tryNextTask w g = some (task, G')) :
    G.nextTask < w.taskCount g ∧ task = WindowHashGroup.task w g G.nextTask ∧
      task.stage = G.stage ∧ G' = { G with nextTask := G.nextTask + 1 } := by
  simp only [WindowHashGroup.tryNextTask] at h
  split_ifs at h with hle hstg
  obtain ⟨rfl, rfl⟩ := Prod.mk.inj (some.inj h)
  exact ⟨not_le.1 hle, rfl, hstg, rfl⟩

theorem sum_map_succ {l : List ℕ} {f f' : ℕ → ℕ} (hnd : l.Nodup) (hg : g ∈ l)
    (hself : f' g = f g + 1) (hoth : ∀ g', g' ≠ g → f' g' = f g') :
    (l.map f').sum = (l.map f).sum + 1 := by
  have hperm := perm_cons_erase hg
  have hrst : (l.erase g).map f' = (l.erase g).map f :=
    map_congr_left fun g' hg' => hoth g' (hnd.mem_erase_iff.1 hg').1
  rw [(hperm.map f').sum_eq, (hperm.map f).sum_eq, map_cons, map_cons, sum_cons, sum_cons, hrst, hself]
  omega

theorem Inv.prepare (h : w.Inv s) (htsk : (s.threads t).task = none) (phase : SourcePhase) :
    w.Inv (s.set t (s.global.setGroup g ((s.global.groups g).tryPrepareNextStage w g), ⟨none, phase⟩)) := by
  obtain ⟨σ, hprepare, hle, hcomplete⟩ := (h.group g).prepare_cases
  rw [hprepare]
  obtain ⟨s', hs', hself, hoth, hglob⟩ :=
    s.exists_set t (s.global.setGroup g { s.global.groups g with stage := σ }) ⟨none, phase⟩
  have htasks : ∀ t', (s'.threads t').task = (s.threads t').task := by
    intro t'
    rcases eq_or_ne t' t with rfl | hne
    · rw [hself, htsk]
    · rw [hoth t' hne]
  have hG : s'.global.groups g = { s.global.groups g with stage := σ } := by
    rw [hglob]
    exact update_self ..
  have hgrps : ∀ g', g' ≠ g → s'.global.groups g' = s.global.groups g' := by
    intro g' hne
    rw [hglob]
    exact update_of_ne hne ..
  have hhand : s'.global.handed = s.global.handed := hs' ▸ rfl
  have hfsd : s'.global.finished = s.global.finished := hs' ▸ rfl
  rw [← hs']
  refine h.of_about (t := t) (g := g) ⟨hgrps, hoth, fun task' h => ?_, ⟨[], ?_, by simp⟩,
    ⟨[], ?_, by simp⟩⟩ ?_ ?_ ?_ ?_ ?_ ?_ ?_ ?_ hhand
  · rw [htasks, htsk] at h
    exact absurd h (by simp)
  · rw [hhand, append_nil]
  · rw [hfsd, append_nil]
  · exact (h.group g).set_stage hG hle hcomplete hhand hfsd htasks
  · have hledg : s'.ledger w = s.ledger w := by
      simp only [State.ledger, hhand, hfsd, htasks]
    exact hledg ▸ h.ledger
  · rw [hself]
    exact fun _ _ => rfl
  iterate 3
    · rw [hglob]
      rfl
  · rw [hG]
  · rw [hG]

theorem Inv.not_mem_handed (h : w.Inv s) (hlt : (s.global.groups g).nextTask < w.taskCount g) :
    w.taskNo (WindowHashGroup.task w g (s.global.groups g).nextTask) ∉
      (s.ledger w).handed.map Prod.snd := by
  intro hmem
  obtain ⟨p, hp, heq⟩ := List.mem_map.1 hmem
  obtain ⟨e, he, rfl⟩ := List.mem_map.1 hp
  rw [taskNo_task hlt] at heq
  have hgrp : e.2.groupIdx = g := congrArg Prod.fst heq
  obtain ⟨k, hk, hek⟩ := (h.group g).handed_task e he hgrp
  rw [hek, taskNo_task (hk.trans hlt)] at heq
  exact hk.ne (congrArg Prod.snd heq)

section

variable (h : w.Inv s) (htsk : (s.threads t).task = none) (hg : g ∈ w.groups.take s.global.nextGroup)

include h htsk hg

theorem Inv.hand
    (hlt : (s.global.groups g).nextTask < w.taskCount g)
    (hstg : (WindowHashGroup.task w g (s.global.groups g).nextTask).stage = (s.global.groups g).stage) :
    w.Inv (s.set t ({ s.global.setGroup g
        { s.global.groups g with nextTask := (s.global.groups g).nextTask + 1 } with
      started := s.global.started + 1
      lock := none
      handed := s.global.handed ++ [(t, WindowHashGroup.task w g (s.global.groups g).nextTask)] },
      ⟨some (WindowHashGroup.task w g (s.global.groups g).nextTask), .ready⟩)) := by
  obtain ⟨task, htaskEq⟩ : ∃ task, task = WindowHashGroup.task w g (s.global.groups g).nextTask := ⟨_, rfl⟩
  rw [← htaskEq]
  obtain ⟨s', hs', hself, hoth, -⟩ := s.exists_set t { s.global.setGroup g
      { s.global.groups g with nextTask := (s.global.groups g).nextTask + 1 } with
    started := s.global.started + 1
    lock := none
    handed := s.global.handed ++ [(t, task)] } ⟨some task, .ready⟩
  have hG : s'.global.groups g = { s.global.groups g with nextTask := (s.global.groups g).nextTask + 1 } := by
    rw [hs']
    exact update_self ..
  have hgrps : ∀ g', g' ≠ g → s'.global.groups g' = s.global.groups g' := by
    intro g' hne
    rw [hs']
    exact update_of_ne hne ..
  have hhand : s'.global.handed = s.global.handed ++ [(t, task)] := hs' ▸ rfl
  have hfsd : s'.global.finished = s.global.finished := hs' ▸ rfl
  have hnx : s'.global.nextGroup = s.global.nextGroup := hs' ▸ rfl
  have hrel : ∀ g', (s'.global.groups g').released = (s.global.groups g').released := by
    intro g'
    rcases eq_or_ne g' g with rfl | hne
    · rw [hG]
    · rw [hgrps g' hne]
  have hgrp : task.groupIdx = g := htaskEq ▸ rfl
  have habout : About s t g s' := by
    refine ⟨hgrps, hoth, fun task' h => ?_, ⟨_, hhand, ?_⟩, ⟨[], ?_, by simp⟩⟩
    · rw [htsk, hself] at h
      rcases h with h | h
      · exact absurd h (by simp)
      · rw [← some.inj h, hgrp]
    · intro e he
      rw [mem_singleton.1 he, hgrp]
    · rw [hfsd, append_nil]
  rw [← hs']
  refine ⟨habout.forall_groupInv h ?_, ?_, fun t' => ?_, fun e he => ?_, fun g' hg' => ?_, fun g' hg' => ?_, ?_⟩
  · exact (h.group g).hand hlt hstg hG (htaskEq ▸ hhand) hfsd
      (fun t' hne => by rw [hoth t' hne]) (htaskEq ▸ by rw [hself])
  · have hledg : s'.ledger w = ⟨(s.ledger w).handed ++ [(t, w.taskNo task)], (s.ledger w).returned,
        update (s.ledger w).held t (some (w.taskNo task))⟩ := by
      simp only [State.ledger, hhand, hfsd, map_append, map_singleton, Ledger.mk.injEq, true_and]
      funext t'
      rcases eq_or_ne t' t with rfl | hne
      · rw [hself, update_self]
        rfl
      · rw [hoth t' hne, update_of_ne hne]
    rw [hledg]
    exact h.ledger.hand (htaskEq ▸ h.not_mem_handed hlt) (by simp [State.ledger, htsk])
  · rcases eq_or_ne t' t with rfl | hne
    · rw [hself]
      exact fun h _ => absurd rfl h
    · rw [hoth t' hne]
      exact h.trying t'
  · rw [hnx]
    rw [hhand, mem_append, mem_singleton] at he
    rcases he with he | rfl
    · exact h.handed_group e he
    · rw [hgrp]
      exact hg
  · have hact : g' ∈ s.global.activeGroups := by
      rw [hs'] at hg'
      exact hg'
    rw [hnx, hrel]
    exact h.active g' hact
  · rw [hrel] at hg'
    rw [hnx]
    exact h.released_group g' hg'
  · have hstd : s'.global.started = s.global.started + 1 := hs' ▸ rfl
    rw [hstd, h.started_eq, eq_comm]
    refine sum_map_succ groups_nodup (mem_of_mem_take hg) ?_ fun g' hne => ?_
    · rw [hG]
    · rw [hgrps g' hne]

theorem Inv.tryGroup (phase : SourcePhase) :
    (∃ S, s.global.tryGroup w t g = (S, none) ∧ w.Inv (s.set t (S, ⟨none, phase⟩))) ∨
      ∃ S task, s.global.tryGroup w t g = (S, some task) ∧ w.Inv (s.set t (S, ⟨some task, .ready⟩)) := by
  have hinv := h.prepare (g := g) htsk phase
  rw [SourceGlobal.tryGroup]
  obtain ⟨G, hG⟩ : ∃ G, G = (s.global.groups g).tryPrepareNextStage w g := ⟨_, rfl⟩
  rw [← hG] at hinv ⊢
  cases hnx : G.tryNextTask w g with
  | none => exact .inl ⟨_, rfl, hinv⟩
  | some r =>
    obtain ⟨hlt, htaskEq, hstg, hG'⟩ := tryNextTask_eq_some hnx
    refine .inr ⟨_, r.1, rfl, ?_⟩
    have hself : (s.set t (s.global.setGroup g G, ⟨none, phase⟩)).global.groups g = G := update_self ..
    have hhand := hinv.hand (t := t) (g := g) (by rw [s.set_threads_self t]) hg (by rwa [hself])
      (by rw [hself, ← htaskEq, hstg])
    rw [hself, ← htaskEq, ← hG'] at hhand
    -- The group and the thread are changed twice.
    simpa only [State.set, SourceGlobal.setGroup, update_idem] using hhand

end

theorem Inv.start (h : w.Inv s) (hg : w.groups[s.global.nextGroup]? = some g) : w.Inv ⟨{ s.global with
      nextGroup := s.global.nextGroup + 1
      activeGroups := s.global.activeGroups ++ [g] }, s.threads⟩ := by
  obtain ⟨hlt, hget⟩ := List.getElem?_eq_some_iff.1 hg
  have hmono : ∀ g' ∈ w.groups.take s.global.nextGroup, g' ∈ w.groups.take (s.global.nextGroup + 1) :=
    fun g' hg' => (take_sublist_take_left (Nat.le_succ _)).subset hg'
  have hmem : g ∈ w.groups.take (s.global.nextGroup + 1) := by
    rw [take_succ_eq_append_getElem hlt, hget]
    exact mem_append_right _ (mem_singleton_self _)
  refine ⟨fun g' => ?_, h.ledger, h.trying, fun e he => hmono _ (h.handed_group e he), fun g' hg' => ?_,
    fun g' hg' => hmono g' (h.released_group g' hg'), h.started_eq⟩
  · exact (h.group g').set_stage rfl le_rfl (h.group g').complete rfl rfl fun _ => rfl
  · rcases mem_append.1 hg' with hg' | hg'
    · exact ⟨hmono g' (h.active g' hg').1, (h.active g' hg').2⟩
    · rw [mem_singleton.1 hg']
      refine ⟨hmem, Bool.eq_false_iff.2 fun hr => ?_⟩
      -- A group that is released has been started before.
      have hnd := groups_nodup (w := w)
      rw [← take_append_drop s.global.nextGroup w.groups, nodup_append] at hnd
      refine hnd.2.2 g (h.released_group g hr) g ?_ rfl
      rw [drop_eq_getElem_cons hlt, hget]
      exact mem_cons_self

theorem State.set_self (s : State) (t : ℕ) : s.set t (s.global, s.threads t) = s := by
  rw [State.set, update_eq_self]

theorem Inv.set_phase (h : w.Inv s) {S : SourceGlobal} {l : SourceLocal}
    (hS : S = { s.global with lock := S.lock, stopped := S.stopped })
    (htsk : l.task = (s.threads t).task)
    (hl : l.phase ≠ .ready → l.phase ≠ .failed → l.task = none) : w.Inv (s.set t (S, l)) := by
  have hglob : (s.set t (S, l)).global = S := rfl
  refine h.congr ?_ ?_ ?_ ?_ ?_ ?_ (fun t' => ?_) fun t' => ?_
  iterate 6
    · rw [hglob, hS]
  · rcases eq_or_ne t' t with rfl | hne
    · rw [s.set_threads_self t', htsk]
    · rw [s.set_threads_of_ne _ hne]
  · rcases eq_or_ne t' t with rfl | hne
    · rw [s.set_threads_self t']
      exact hl
    · rw [s.set_threads_of_ne _ hne]
      exact h.trying t'

/-- A step of a thread keeps to what holds of the system. -/
theorem Inv.step (h : w.Inv s) (t : ℕ) : w.Inv (s.set t (w.threadStep t s.global (s.threads t))) := by
  have hstay : w.Inv (s.set t (s.global, s.threads t)) := by rwa [s.set_self]
  cases hph : (s.threads t).phase with
  | ready =>
    cases hfin : (s.threads t).taskFinished with
    | true =>
      simp only [threadStep, hph]
      split_ifs
      · exact hstay
      · have hset := (h.finish hfin).set_phase (t := t)
          (S := { s.global.finishTask w t (s.threads t).task with lock := some t })
          (l := ⟨none, .tryActive 0⟩) rfl (by rw [s.set_threads_self t]) fun _ _ => rfl
        simpa only [State.set, update_idem] using hset
      · exact h.finish hfin
    | false =>
      simp only [threadStep, hph, hfin]
      cases htsk : (s.threads t).task with
      | none => exact hstay
      | some task =>
        refine h.execute htsk fun heq => ?_
        rw [SourceLocal.taskFinished, htsk] at hfin
        exact absurd heq (of_decide_eq_false hfin)
  | tryActive i =>
    have htsk := h.trying t (by simp [hph]) (by simp [hph])
    cases hget : s.global.activeGroups[i]? with
    | none =>
      simp only [threadStep, hph, hget]
      exact h.set_phase rfl rfl fun _ _ => htsk
    | some g =>
      have hg := (h.active g (mem_of_getElem? hget)).1
      rcases h.tryGroup htsk hg (.tryActive (i + 1)) with ⟨S, heq, hinv⟩ | ⟨S, task, heq, hinv⟩
      · simp only [threadStep, hph, hget, heq, htsk]
        exact hinv
      · simp only [threadStep, hph, hget, heq]
        exact hinv
  | tryStart =>
    have htsk := h.trying t (by simp [hph]) (by simp [hph])
    cases hget : w.groups[s.global.nextGroup]? with
    | none =>
      simp only [threadStep, hph, hget]
      exact h.set_phase rfl htsk.symm fun _ _ => rfl
    | some g =>
      -- The group is started before it is tried.
      have hlt := (List.getElem?_eq_some_iff.1 hget).1
      have hg : g ∈ w.groups.take (s.global.nextGroup + 1) := by
        rw [take_succ_eq_append_getElem hlt, (List.getElem?_eq_some_iff.1 hget).2]
        exact mem_append_right _ (mem_singleton_self _)
      rcases (h.start hget).tryGroup htsk hg .tryStart with ⟨S, heq, hinv⟩ | ⟨S, task, heq, hinv⟩
      · simp only [threadStep, hget, heq]
        have hl : s.threads t = ⟨none, .tryStart⟩ := by rw [← htsk, ← hph]
        rw [hl]
        exact hinv
      · simp only [threadStep, hph, hget, heq]
        exact hinv
  | failed =>
    simp only [threadStep, hph]
    exact hstay

/-- An exception only stops the source. -/
theorem Inv.throw (h : w.Inv s) (t : ℕ) : w.Inv (s.set t (threadThrow s.global (s.threads t))) := by
  rw [threadThrow]
  split_ifs
  · exact h.set_phase rfl rfl fun _ h => absurd rfl h
  · rwa [s.set_self]

theorem Inv.init : w.Inv init := by
  refine ⟨fun g => ⟨?_, ?_, ?_, ?_, ?_, rfl, rfl, rfl, ?_, ?_, ?_, ?_, rfl, ?_⟩, ?_, ?_, ?_, ?_, ?_, ?_⟩
  · exact Nat.zero_le _
  · exact fun e he => absurd he not_mem_nil
  iterate 2
    · exact fun k hk => absurd hk (Nat.not_lt_zero k)
  · exact fun σ hσ => absurd hσ (Nat.not_lt_zero _)
  · exact fun σ => nodup_nil
  · exact fun σ b hb => absurd hb not_mem_nil
  · exact fun t task ht => absurd ht (by simp [WindowSource.init])
  · exact fun e he => absurd he not_mem_nil
  · exact fun h => absurd h Bool.false_ne_true
  · exact Ledger.Inv.start
  · exact fun _ _ _ => rfl
  · exact fun e he => absurd he not_mem_nil
  · exact fun g hg => absurd hg not_mem_nil
  · exact fun g h => absurd h Bool.false_ne_true
  · simp [WindowSource.init]

/-- In every run, all of it holds at any time. -/
theorem Reachable.inv (h : w.Reachable s) : w.Inv s := by
  refine WfOpt.Reachable.invariant ?_ ?_ h
  · rintro s rfl
    exact Inv.init
  · rintro s s' - hs ⟨t, rfl | rfl⟩
    · exact hs.step t
    · exact hs.throw t

end WindowSource

end WfOpt

import WfOpt.Window.SourceInvariant

/-!
# What the source of the window operator guarantees

However the steps of the threads are interleaved: every task is handed out once, the
tasks of a stage divide the blocks of their group, a task of a stage is only
handed out when all earlier stages are complete, and a group is only released when all
of its tasks have been finished (`WindowSource.tasks_in_order`).
-/

namespace WfOpt

open List

namespace WindowSource

variable {w : WindowSource} {s : State} {g k : ℕ}

section

variable {σ : WindowGroupStage} {i : ℕ} (hσ : σ ≠ .done) (hi : i < w.threadCount g)

include hσ hi

theorem stage_mul_add_lt :
    σ.toIdx * w.threadCount g + i < w.taskCount g := by
  have hle : σ.toIdx + 1 ≤ 4 := by
    cases σ <;> first | exact absurd rfl hσ | decide
  calc
    σ.toIdx * w.threadCount g + i < (σ.toIdx + 1) * w.threadCount g := by
      rw [Nat.add_mul, one_mul]
      exact Nat.add_lt_add_left hi _
    _ ≤ 4 * w.threadCount g := Nat.mul_le_mul_right _ hle
    _ = w.taskCount g := Nat.mul_comm _ _

theorem task_stage_mul_add :
    (WindowHashGroup.task w g (σ.toIdx * w.threadCount g + i)).stage = σ ∧
      (WindowHashGroup.task w g (σ.toIdx * w.threadCount g + i)).threadIdx = i := by
  have hpos : 0 < w.threadCount g := Nat.zero_lt_of_lt hi
  constructor
  · apply WindowGroupStage.toIdx_injective
    rw [stage_task (stage_mul_add_lt hσ hi), Nat.mul_comm, Nat.mul_add_div hpos, Nat.div_eq_of_lt hi, Nat.add_zero]
  · rw [WindowHashGroup.task]
    rw [Nat.mul_comm, Nat.mul_add_mod, Nat.mod_eq_of_lt hi]

end

/-- The finished tasks of a group were handed out to the same threads. When it is released, they are all of its tasks. -/
theorem Inv.finished_of_released (h : w.Inv s) (hr : (s.global.groups g).released)
    (hk : k < w.taskCount g) : ∃ t, (t, WindowHashGroup.task w g k) ∈ s.global.handed ∧
      (t, { WindowHashGroup.task w g k with beginIdx := (WindowHashGroup.task w g k).endIdx }) ∈
        s.global.finished := by
  have hg := h.group g
  -- The numbers of the tasks finished are different, and as many as there are.
  let l := (s.global.finished.filter fun e => e.2.groupIdx = g).map fun e => (w.taskNo e.2).2
  have hmem : ∀ {e}, e ∈ s.global.finished.filter (fun e => e.2.groupIdx = g) →
      e ∈ s.global.finished ∧ e.2.groupIdx = g :=
    fun he => (mem_filter.1 he).imp_right of_decide_eq_true
  have hno : ∀ e ∈ s.global.finished, e.2.groupIdx = g → ∃ k < w.taskCount g,
      e.2 = { WindowHashGroup.task w g k with beginIdx := (WindowHashGroup.task w g k).endIdx } ∧
      (w.taskNo e.2) = (g, k) := by
    intro e he heg
    obtain ⟨k, hk, heq, -⟩ := hg.finished e he heg
    have hk' := hk.trans_le hg.next_le
    exact ⟨k, hk', heq, by rw [heq]; exact taskNo_task hk'⟩
  have hnd : l.Nodup := by
    have hall : (s.global.finished.map fun e => w.taskNo e.2).Nodup := by
      have := h.ledger.returned_nodup
      rwa [State.ledger, map_map] at this
    refine List.Nodup.map_on ?_ (hall.of_map.filter _)
    intro e he e' he' heq
    obtain ⟨k, -, -, hek⟩ := hno e (hmem he).1 (hmem he).2
    obtain ⟨k', -, -, hek'⟩ := hno e' (hmem he').1 (hmem he').2
    refine inj_on_of_nodup_map hall (hmem he).1 (hmem he').1 (Prod.ext ?_ heq)
    rw [hek, hek']
  have hlt : ∀ k ∈ l, k < w.taskCount g := by
    intro k hk
    obtain ⟨e, he, rfl⟩ := mem_map.1 hk
    obtain ⟨k', hk', -, hek⟩ := hno e (hmem he).1 (hmem he).2
    rw [hek]
    exact hk'
  have hlen : w.taskCount g ≤ l.length := by
    rw [length_map, ← hg.completed_eq]
    exact hg.released hr
  obtain ⟨e, he, hek⟩ := mem_map.1 (mem_of_length_le hnd hlt hlen hk)
  obtain ⟨k', hk', heq, hek'⟩ := hno e (hmem he).1 (hmem he).2
  obtain rfl : k' = k := by rw [← hek, hek']
  refine ⟨e.1, ?_, heq ▸ (hmem he).1⟩
  -- It was handed out to the thread that has finished it.
  have hret : (e.1, w.taskNo e.2) ∈ (s.ledger w).returned := mem_map.2 ⟨e, (hmem he).1, rfl⟩
  obtain ⟨e', he', heq'⟩ := mem_map.1 (h.ledger.returned_subset _ hret)
  obtain ⟨h₁, h₂⟩ := Prod.mk.inj heq'
  rw [hek'] at h₂
  obtain ⟨k'', hk'', hek''⟩ := hg.handed_task e' he' (congrArg Prod.fst h₂)
  rw [hek'', taskNo_task (hk''.trans_le hg.next_le)] at h₂
  obtain rfl : k'' = k' := congrArg Prod.snd h₂
  rw [← h₁, ← hek'']
  exact he'

/-- When as many tasks have been handed out as there are, they are all tasks. -/
theorem Inv.nextTask_eq (h : w.Inv s) (hstd : w.totalTasks ≤ s.global.started)
    (hg : g ∈ w.groups) : (s.global.groups g).nextTask = w.taskCount g := by
  refine le_antisymm (h.group g).next_le (not_lt.1 fun hlt => ?_)
  have hsum : (w.groups.map fun g => (s.global.groups g).nextTask).sum < (w.groups.map w.taskCount).sum :=
    sum_lt_sum _ _ (fun g _ => (h.group g).next_le) ⟨g, hg, hlt⟩
  rw [← h.started_eq] at hsum
  exact absurd hstd (not_le.2 hsum)

/-- In a stage, the task of a thread has been handed out. -/
def HandedOut (s : State) (g : ℕ) (σ : WindowGroupStage) (i : ℕ) : Prop :=
  (g, σ, i) ∈ s.global.handed.map fun e => (e.2.groupIdx, e.2.stage, e.2.threadIdx)

theorem Inv.handedOut (h : w.Inv s) {σ : WindowGroupStage} {i : ℕ} (hσ : σ ≠ .done) (hi : i < w.threadCount g)
    (hlt : σ.toIdx * w.threadCount g + i < (s.global.groups g).nextTask) : HandedOut s g σ i := by
  obtain ⟨t, ht⟩ := (h.group g).handed_all _ hlt
  obtain ⟨h₁, h₂⟩ := task_stage_mul_add hσ hi
  exact mem_map.2 ⟨_, ht, by rw [h₁, h₂]; rfl⟩

/-- One group with two blocks, processed by two threads that take turns. -/
def twoBlocks : WindowSource where
  hashGroups := [some [3, 2]]
  threads := 2
  perThread_pos := fun _ => by decide +kernel

def takeStep (w : WindowSource) (s : State) (t : ℕ) : State := s.set t (w.threadStep t s.global (s.threads t))

theorem Reachable.foldl (h : w.Reachable s) (l : List ℕ) : w.Reachable (l.foldl w.takeStep s) := by
  induction l generalizing s with
  | nil => exact h
  | cons t l ih => exact ih (.step h ⟨t, .inl rfl⟩)

def afterTurns (n : ℕ) : State := (replicate n [0, 1]).flatten.foldl twoBlocks.takeStep init

end WindowSource

end WfOpt

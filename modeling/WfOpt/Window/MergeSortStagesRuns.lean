import WfOpt.Window.MergeSortStages

/-!
# Runs of the stages of a merge sort tree

What the threads have done, and what they still have to do, are the tasks that have been handed out
(`MergeSortStaging.Inv`); those of the next stage are, once all have been counted as completed. So each local sort is
combined once before the sorted rows are materialised, and each of these is copied once to its leaf before they are
released (`MergeSortStaging.staged_of_reachable`).
-/

namespace WfOpt

open List

/-! ## Blocks -/

/-- Consecutive ranges make up a range. -/
theorem flatMap_range' {f : ℕ → ℕ} (hmono : ∀ k, f k ≤ f (k + 1)) (n : ℕ) :
    ((List.range n).flatMap fun k => List.range' (f k) (f (k + 1) - f k)) = List.range' (f 0) (f n - f 0) := by
  have hle : ∀ n, f 0 ≤ f n := by
    intro n
    induction n with
    | zero => exact le_rfl
    | succ n ih => exact ih.trans (hmono n)
  induction n with
  | zero =>
    rw [Nat.sub_self]
    rfl
  | succ n ih =>
    have hst : f 0 + 1 * (f n - f 0) = f n := by
      rw [Nat.one_mul, Nat.add_sub_cancel' (hle n)]
    have hlen : f n - f 0 + (f (n + 1) - f n) = f (n + 1) - f 0 := by
      have := hmono n
      omega
    rw [range_succ, flatMap_append, ih, flatMap_singleton, ← hlen, ← range'_append, hst]

namespace SortedRows

variable (data : SortedRows)

/-- What is copied for the chunks `first`, ..., `last - 1`. -/
def copies (first last : ℕ) : List (ℕ × ℕ) :=
  (List.range' first (last - first)).flatMap fun block => data.copyBlock block (data.chunks.position block)

/-- What the first tasks copy. -/
def dealt (totalTasks tasks : ℕ) : List (ℕ × ℕ) :=
  (List.range tasks).flatMap fun task => data.copies (data.blockBegin totalTasks task)
    (data.blockBegin totalTasks (task + 1))

/-- All leaves of the sorted rows. -/
def allLeaves : List (ℕ × ℕ) := (List.range data.rows.length).map data.leaf

variable {data}

theorem copies_self (b : ℕ) : data.copies b b = [] := by
  rw [copies, Nat.sub_self]
  rfl

theorem copies_of_lt {b e : ℕ} (h : b < e) :
    data.copies b e = data.copyBlock b (data.chunks.position b) ++ data.copies (b + 1) e := by
  obtain ⟨k, rfl⟩ := Nat.exists_eq_add_of_lt h
  have hfst : b + k + 1 - b = k + 1 := by omega
  have hrst : b + k + 1 - (b + 1) = k := by omega
  rw [copies, copies, hfst, hrst, range'_succ, flatMap_cons]

theorem blockBegin_le {totalTasks task : ℕ} (h : task ≤ totalTasks) :
    data.blockBegin totalTasks task ≤ data.chunks.chunks.length :=
  DistinctAggregator.blockBegin_le data.chunks h

theorem blockBegin_mono (totalTasks task : ℕ) :
    data.blockBegin totalTasks task ≤ data.blockBegin totalTasks (task + 1) :=
  DistinctAggregator.blockBegin_mono data.chunks totalTasks task

/-- The leaves of a chunk are those of its rows. -/
theorem copyBlock_position {block : ℕ} (h : block < data.chunks.chunks.length) :
    data.copyBlock block (data.chunks.position block) = (List.range' (data.chunks.position block)
        (data.chunks.position (block + 1) - data.chunks.position block)).map data.leaf := by
  rw [ChunkedRows.position_succ h, Nat.add_sub_cancel_left, range'_eq_map_range, map_map, copyBlock]
  rfl

variable (data) in
/-- All tasks together copy the leaves of all rows. -/
theorem dealt_all {totalTasks : ℕ} (h : 0 < totalTasks) : data.dealt totalTasks totalTasks = data.allLeaves := by
  have hz : data.blockBegin totalTasks 0 = 0 := by
    rw [blockBegin, DistinctAggregator.blockBegin, Nat.zero_mul, Nat.zero_div]
  have hlst : data.blockBegin totalTasks totalTasks = data.chunks.chunks.length := Nat.mul_div_cancel_left _ h
  have hblks := flatMap_range' (data.blockBegin_mono totalTasks) totalTasks
  rw [hz, hlst, Nat.sub_zero, ← range_eq_range'] at hblks
  have hrs := flatMap_range' (f := data.chunks.position) (fun k => ChunkedRows.position_mono (Nat.le_succ k))
    data.chunks.chunks.length
  rw [ChunkedRows.position_zero, ChunkedRows.position_length, Nat.sub_zero, ← range_eq_range', data.count_eq] at hrs
  calc data.dealt totalTasks totalTasks
      = (range data.chunks.chunks.length).flatMap fun block =>
          data.copyBlock block (data.chunks.position block) := by
        rw [← hblks, flatMap_assoc]
        rfl
    _ = (range data.chunks.chunks.length).flatMap fun block =>
          (range' (data.chunks.position block)
            (data.chunks.position (block + 1) - data.chunks.position block)).map data.leaf :=
        flatMap_congr fun block hblk => copyBlock_position (mem_range.1 hblk)
    _ = data.allLeaves := by
        rw [allLeaves, ← hrs, map_flatMap]

/-- Without rows, nothing is copied. -/
theorem blockBegin_of_rows {totalTasks task : ℕ} (h : data.rows.length = 0) (htsk : task ≤ totalTasks) :
    data.blockBegin totalTasks task = 0 := by
  have hchks : data.chunks.chunks.length = 0 := by
    by_contra hne
    have := ChunkedRows.position_add_chunkSize_le (g := data.chunks) (Nat.pos_of_ne_zero hne)
    have := ChunkedRows.chunkSize_pos (g := data.chunks) (Nat.pos_of_ne_zero hne)
    have := data.count_eq
    omega
  exact Nat.le_zero.1 (hchks ▸ blockBegin_le htsk)

end SortedRows

/-! ## What threads have still to do -/

namespace MergeSortThread

variable (totalTasks : ℕ) (data : SortedRows) (th : MergeSortThread)

/-- The tasks that are not yet counted as completed. -/
def held : ℕ := match th.progress with
  | .execute => 1
  | .copy _ _ _ => 1
  | .complete => 1
  | .test => 0
  | .prepare => 0
  | .returned => 0

/-- The local sort that is to be combined. -/
def toCombine : Multiset ℕ := if th.progress = .execute ∧ th.buildStage = .combine then {th.buildTask} else 0

/-- Whether the sorted rows are to be materialised. -/
def toFinalize : ℕ := if th.progress = .execute ∧ th.buildStage = .finalize then 1 else 0

/-- The leaves that are to be copied. -/
def toCopy : Multiset (ℕ × ℕ) := match th.progress with
  | .execute =>
    if th.buildStage = .sorted then
      data.copies (data.blockBegin totalTasks th.buildTask) (data.blockBegin totalTasks (th.buildTask + 1))
    else 0
  | .copy blockCurr blockEnd _ => data.copies blockCurr blockEnd
  | _ => 0

variable {totalTasks data th}

theorem held_of_execute (h : th.progress = .execute) : th.held = 1 := by
  rw [held, h]

theorem toCombine_of_ne (h : th.progress ≠ .execute ∨ th.buildStage ≠ .combine) : th.toCombine = 0 :=
  if_neg (not_and_or.2 h)

theorem toFinalize_of_ne (h : th.progress ≠ .execute ∨ th.buildStage ≠ .finalize) : th.toFinalize = 0 :=
  if_neg (not_and_or.2 h)

/-- A thread without a task has nothing to do. -/
theorem toCombine_of_held (h : th.held = 0) : th.toCombine = 0 :=
  toCombine_of_ne (.inl fun hexec => absurd ((held_of_execute hexec).symm.trans h) one_ne_zero)

theorem toFinalize_of_held (h : th.held = 0) : th.toFinalize = 0 :=
  toFinalize_of_ne (.inl fun hexec => absurd ((held_of_execute hexec).symm.trans h) one_ne_zero)

theorem toCopy_of_held (h : th.held = 0) : th.toCopy totalTasks data = 0 := by
  obtain ⟨progress, stage, task⟩ := th
  cases progress with
  | test => rfl
  | prepare => rfl
  | execute | copy b e r | complete => exact absurd h one_ne_zero
  | returned => rfl

theorem toCopy_of_ne (hcopy : ∀ b e r, th.progress ≠ .copy b e r) (h : th.buildStage ≠ .sorted) :
    th.toCopy totalTasks data = 0 := by
  obtain ⟨progress, stage, task⟩ := th
  cases progress with
  | test => rfl
  | prepare => rfl
  | execute => exact if_neg h
  | copy b e r => exact absurd rfl (hcopy b e r)
  | complete => rfl
  | returned => rfl

variable (totalTasks data th)

/-- A thread that has executed its task has nothing more to do for it. -/
theorem toCombine_complete : toCombine { th with progress := .complete } = 0 := toCombine_of_ne (.inl nofun)

theorem toFinalize_complete : toFinalize { th with progress := .complete } = 0 := toFinalize_of_ne (.inl nofun)

theorem toCopy_complete : toCopy totalTasks data { th with progress := .complete } = 0 := rfl

variable (b e r : ℕ)

/-- A thread that copies leaves has nothing else to do. -/
theorem toCombine_copy : toCombine { th with progress := .copy b e r } = 0 := toCombine_of_ne (.inl nofun)

theorem toFinalize_copy : toFinalize { th with progress := .copy b e r } = 0 := toFinalize_of_ne (.inl nofun)

theorem toCopy_copy : toCopy totalTasks data { th with progress := .copy b e r } = data.copies b e := rfl

end MergeSortThread

namespace MergeSortStage

/-- The order of the stages. -/
def toIdx : MergeSortStage → ℕ
  | init => 0
  | combine => 1
  | finalize => 2
  | sorted => 3
  | finished => 4

/-- The number of tasks of a stage. -/
def total (localSinks : ℕ) : MergeSortStage → ℕ
  | init => 0
  | combine => localSinks
  | finalize => 1
  | sorted => localSinks
  | finished => localSinks

/-- The tasks of the stage `σ` that have been handed out, in another stage or the same one. -/
def dealt (localSinks : ℕ) (stage : MergeSortStage) (assigned : ℕ) (σ : MergeSortStage) : ℕ :=
  if stage = σ then assigned else if stage.toIdx < σ.toIdx then 0 else σ.total localSinks

end MergeSortStage

namespace MergeSortStaging

open MergeSortThread

variable {ι : Type*}

/-- The tasks of a stage that have been handed out. -/
def dealt (L : List (List ℕ)) (T : MergeSortStaging ι) (σ : MergeSortStage) : ℕ :=
  T.buildStage.dealt L.length T.tasksAssigned σ

/-- What is required of a thread that executes a task: it is one of those that have been handed out. -/
def Executes (T : MergeSortStaging ι) (th : MergeSortThread) : Prop :=
  th.held ≠ 0 → th.buildStage = T.buildStage ∧ (T.buildStage ≠ .finished → th.buildTask < T.tasksAssigned)

/-- What is required of a thread that copies leaves. -/
def Copies (T : MergeSortStaging ι) (th : MergeSortThread) : Prop :=
  ∀ b e r, th.progress = .copy b e r → th.buildStage = .sorted ∧
    ∀ data ∈ T.materialized, b ≤ e ∧ e ≤ data.chunks.chunks.length ∧ r = data.chunks.position b

/-- What has been done, and what threads have still to do, are the tasks that have been handed out. -/
structure Inv [Fintype ι] (L : List (List ℕ)) (T : MergeSortStaging ι) : Prop where
  agree : ∀ t, T.Executes (T.thread t)
  copying : ∀ t, T.Copies (T.thread t)
  counted : T.buildStage ≠ .finished → ∑ t, (T.thread t).held + T.tasksCompleted = T.tasksAssigned
  assigned_le : T.tasksAssigned ≤ T.totalTasks
  total : T.totalTasks = T.buildStage.total L.length
  localSinks : T.buildStage ≠ .finished → T.localSinks = L
  globalSink : T.buildStage ≠ .finished → T.globalSink = T.combined.flatMap fun i => L.getD i []
  combines : ∑ t, (T.thread t).toCombine + (T.combined : Multiset ℕ) = (List.range (T.dealt L .combine) : Multiset ℕ)
  finalizes : ∑ t, (T.thread t).toFinalize + T.materialized.length = T.dealt L .finalize
  sorted : T.sorted = if T.buildStage = .finished then none else T.materialized.head?
  rows : ∀ data ∈ T.materialized, data.rows.Perm L.flatten
  copied : ∀ data ∈ T.materialized, ∑ t, (T.thread t).toCopy L.length data + (T.leaves : Multiset (ℕ × ℕ)) =
    (data.dealt L.length (T.dealt L .sorted) : Multiset (ℕ × ℕ))
  not_copied : T.materialized = [] → T.leaves = []
  notFailed : T.failed = false

variable {L : List (List ℕ)} {T : MergeSortStaging ι} {t : ι}

theorem copies_of_held {th : MergeSortThread} (h : th.held = 0) : T.Copies th := by
  intro b e r hcopy
  rw [held, hcopy] at h
  exact absurd h one_ne_zero

variable {σ : MergeSortStage}

theorem dealt_of_eq (h : T.buildStage = σ) : T.dealt L σ = T.tasksAssigned := if_pos h

theorem Inv.start [Fintype ι] (L : List (List ℕ)) : Inv L (start L : MergeSortStaging ι) where
  agree _ h := absurd rfl h
  copying _ _ _ _ h := nomatch h
  counted _ := Finset.sum_eq_zero fun _ _ => rfl
  assigned_le := le_rfl
  total := rfl
  localSinks _ := rfl
  globalSink _ := rfl
  combines := by
    rw [Finset.sum_eq_zero fun t _ => toCombine_of_held rfl]
    rfl
  finalizes := by
    rw [Finset.sum_eq_zero fun t _ => toFinalize_of_held rfl]
    rfl
  sorted := rfl
  rows _ h := nomatch h
  copied _ h := nomatch h
  not_copied _ := rfl
  notFailed := rfl

/-! ## Threads without a task -/

theorem Inv.held_eq_zero [Fintype ι] (h : Inv L T) (hstg : T.buildStage ≠ .finished)
    (hcompl : ¬ T.tasksCompleted < T.tasksAssigned) (t : ι) : (T.thread t).held = 0 := by
  have hcounted := h.counted hstg
  have hsum : ∑ t, (T.thread t).held = 0 := by omega
  exact Finset.sum_eq_zero_iff.1 hsum t (Finset.mem_univ t)

/-! ## Stages -/

section

variable [Fintype ι] (h : Inv L T) (hidle : ∀ t, (T.thread t).held = 0)
include h hidle

/-- No thread executes a task when the next stage begins, and as many tasks have been handed out as there
    were. -/
theorem Inv.enter {σ : MergeSortStage} (hstg : T.buildStage ≠ .finished) (hσ : σ ≠ .finished)
    (hdealt : ∀ τ, σ.dealt L.length 0 τ = T.dealt L τ) : Inv L (T.enter σ (σ.total L.length)) where
  agree t ht := absurd (hidle t) ht
  copying := h.copying
  counted _ := Finset.sum_eq_zero fun t _ => hidle t
  assigned_le := Nat.zero_le _
  total := rfl
  localSinks _ := h.localSinks hstg
  globalSink _ := h.globalSink hstg
  combines := h.combines.trans (by rw [← hdealt]; rfl)
  finalizes := h.finalizes.trans (by rw [← hdealt]; rfl)
  sorted := by
    have hsort := h.sorted
    rw [if_neg hstg] at hsort
    exact hsort.trans (if_neg hσ).symm
  rows := h.rows
  copied data hdata := (h.copied data hdata).trans (by rw [← hdealt]; rfl)
  not_copied := h.not_copied
  notFailed := h.notFailed

/-- The data is released when all leaves have been copied. -/
theorem Inv.release (hstg : T.buildStage = .sorted) (hasgn : T.tasksAssigned = L.length) : Inv L T.release where
  agree t ht := absurd (hidle t) ht
  copying := h.copying
  counted hne := absurd rfl hne
  assigned_le := h.assigned_le
  total := h.total.trans (by rw [hstg]; rfl)
  localSinks hne := absurd rfl hne
  globalSink hne := absurd rfl hne
  combines := h.combines.trans (by rw [dealt, hstg]; rfl)
  finalizes := h.finalizes.trans (by rw [dealt, hstg]; rfl)
  sorted := rfl
  rows := h.rows
  copied data hdata := (h.copied data hdata).trans (by rw [dealt_of_eq hstg, hasgn]; rfl)
  not_copied := h.not_copied
  notFailed := h.notFailed

end

/-! ## Threads -/

variable [DecidableEq ι]

/-- The thread has changed, the others have not. -/
theorem forall_thread {P : MergeSortThread → Prop} {th : MergeSortThread} (hth : P th)
    (h : ∀ t', P (T.thread t')) (t' : ι) : P (Function.update T.thread t th t') := by
  rcases eq_or_ne t' t with rfl | hne
  · rw [Function.update_self]
    exact hth
  · rw [Function.update_of_ne hne]
    exact h t'

theorem Inv.update [Fintype ι] (h : Inv L T) {y : MergeSortThread} {completed : ℕ} {globalSink combined : List ℕ}
    {leaves : List (ℕ × ℕ)} (hagr : T.Executes y) (hcopies : T.Copies y)
    (hheld : T.buildStage ≠ .finished → y.held + completed = (T.thread t).held + T.tasksCompleted)
    (hglob : T.buildStage ≠ .finished → globalSink = combined.flatMap fun i => L.getD i [])
    (hcomb : y.toCombine + (combined : Multiset ℕ) = (T.thread t).toCombine + (T.combined : Multiset ℕ))
    (hfin : y.toFinalize = (T.thread t).toFinalize)
    (hcopy : ∀ data ∈ T.materialized, y.toCopy L.length data + (leaves : Multiset (ℕ × ℕ)) =
      (T.thread t).toCopy L.length data + (T.leaves : Multiset (ℕ × ℕ)))
    (hlvs : T.materialized = [] → leaves = []) :
    Inv L { T with
      thread := Function.update T.thread t y
      tasksCompleted := completed
      globalSink := globalSink
      combined := combined
      leaves := leaves } where
  agree := forall_thread hagr h.agree
  copying := forall_thread hcopies h.copying
  counted hstg := (sum_update_conserved (hheld hstg)).trans (h.counted hstg)
  assigned_le := h.assigned_le
  total := h.total
  localSinks := h.localSinks
  globalSink := hglob
  combines := (sum_update_conserved hcomb).trans h.combines
  finalizes := (sum_update_conserved (by rw [hfin])).trans h.finalizes
  sorted := h.sorted
  rows := h.rows
  copied data hdata := (sum_update_conserved (hcopy data hdata)).trans (h.copied data hdata)
  not_copied := hlvs
  notFailed := h.notFailed

/-- A thread may change, if it has still to do the same. -/
theorem Inv.same [Fintype ι] (h : Inv L T) {y : MergeSortThread} (hagr : T.Executes y) (hcopies : T.Copies y)
    (hheld : T.buildStage ≠ .finished → y.held = (T.thread t).held)
    (hcomb : y.toCombine = (T.thread t).toCombine) (hfin : y.toFinalize = (T.thread t).toFinalize)
    (hcopy : ∀ data ∈ T.materialized, y.toCopy L.length data = (T.thread t).toCopy L.length data) :
    Inv L { T with thread := Function.update T.thread t y } :=
  h.update hagr hcopies (fun hstg => by rw [hheld hstg]) h.globalSink (by rw [hcomb]) hfin
    (fun data hdata => by rw [hcopy data hdata]) h.not_copied

/-- A thread without a task may change. -/
theorem Inv.replace [Fintype ι] (h : Inv L T) {y : MergeSortThread} (hold : (T.thread t).held = 0)
    (hnew : y.held = 0) : Inv L { T with thread := Function.update T.thread t y } := by
  refine h.same (absurd hnew) (copies_of_held hnew) (fun _ => hnew.trans hold.symm) ?_ ?_ fun data _ => ?_
  · rw [toCombine_of_held hold, toCombine_of_held hnew]
  · rw [toFinalize_of_held hold, toFinalize_of_held hnew]
  · rw [toCopy_of_held hold, toCopy_of_held hnew]

/-! ## Tasks -/

theorem dealt_assign_of_eq (h : T.buildStage = σ) : (T.assign t).dealt L σ = T.tasksAssigned + 1 := if_pos h

theorem dealt_assign_of_ne (h : T.buildStage ≠ σ) :
    (T.assign t).dealt L σ = T.dealt L σ := (if_neg h).trans (if_neg h).symm

variable [Fintype ι]

/-- The task a thread gets is added to what the threads have to do. -/
theorem sum_assign {M : Type*} [AddCommMonoid M] {f : MergeSortThread → M} (hf : f (T.thread t) = 0) :
    ∑ t', f ((T.assign t).thread t') = ∑ t', f (T.thread t') + f ⟨.execute, T.buildStage, T.tasksAssigned⟩ := by
  have hsum := sum_update_add f T.thread t ⟨.execute, T.buildStage, T.tasksAssigned⟩
  rwa [hf, add_zero] at hsum

theorem Inv.assign (h : Inv L T) (hidle : (T.thread t).held = 0) (hlt : T.tasksAssigned < T.totalTasks)
    (hstg : T.buildStage ≠ .finished) : Inv L (T.assign t) where
  agree := forall_thread (P := (T.assign t).Executes) (fun _ => ⟨rfl, fun _ => Nat.lt_succ_self _⟩) fun t' ht' =>
    ⟨(h.agree t' ht').1, fun _ => ((h.agree t' ht').2 hstg).trans (Nat.lt_succ_self _)⟩
  copying := forall_thread (fun b e r hcopy => nomatch hcopy) h.copying
  counted _ := by
    have hcounted := h.counted hstg
    rw [sum_assign hidle]
    change ∑ t', (T.thread t').held + 1 + T.tasksCompleted = T.tasksAssigned + 1
    omega
  assigned_le := hlt
  total := h.total
  localSinks := h.localSinks
  globalSink := h.globalSink
  combines := by
    rw [sum_assign (toCombine_of_held hidle), add_right_comm]
    refine (congrArg (· + _) h.combines).trans ?_
    by_cases hcomb : T.buildStage = .combine
    · rw [dealt_of_eq hcomb, dealt_assign_of_eq hcomb, toCombine, if_pos ⟨rfl, hcomb⟩, range_succ]
      rfl
    · rw [dealt_assign_of_ne hcomb, toCombine, if_neg fun h => hcomb h.2, add_zero]
  finalizes := by
    rw [sum_assign (toFinalize_of_held hidle), add_right_comm]
    refine (congrArg (· + _) h.finalizes).trans ?_
    by_cases hfin : T.buildStage = .finalize
    · rw [dealt_of_eq hfin, dealt_assign_of_eq hfin, toFinalize, if_pos ⟨rfl, hfin⟩]
    · rw [dealt_assign_of_ne hfin, toFinalize, if_neg fun h => hfin h.2, add_zero]
  sorted := h.sorted
  rows := h.rows
  copied data hdata := by
    rw [sum_assign (f := toCopy L.length data) (toCopy_of_held hidle), add_right_comm]
    refine (congrArg (· + _) (h.copied data hdata)).trans ?_
    by_cases hsort : T.buildStage = .sorted
    · rw [dealt_of_eq hsort, dealt_assign_of_eq hsort, toCopy, if_pos hsort, SortedRows.dealt,
        SortedRows.dealt, range_succ, flatMap_append, flatMap_singleton]
      rfl
    · rw [dealt_assign_of_ne hsort, toCopy, if_neg hsort, add_zero]
  not_copied := h.not_copied
  notFailed := h.notFailed

/-! ## Executing tasks -/

section

variable (h : Inv L T)
include h

section

omit [DecidableEq ι]

/-- A thread that executes a task does so for the stage of the tree. -/
theorem Inv.stage_of_execute (hexec : (T.thread t).progress = .execute) : (T.thread t).buildStage = T.buildStage :=
  (h.agree t (by rw [held, hexec]; exact one_ne_zero)).1

theorem Inv.sum_toCombine (hstg : T.buildStage ≠ .combine) : ∑ t, (T.thread t).toCombine = 0 :=
  Finset.sum_eq_zero fun _ _ => if_neg fun hexec =>
    hstg ((h.stage_of_execute hexec.1).symm.trans hexec.2)

theorem Inv.sum_toFinalize (hstg : T.buildStage ≠ .finalize) : ∑ t, (T.thread t).toFinalize = 0 :=
  Finset.sum_eq_zero fun _ _ => if_neg fun hexec =>
    hstg ((h.stage_of_execute hexec.1).symm.trans hexec.2)

theorem Inv.sum_toCopy (hstg : T.buildStage ≠ .sorted) (data : SortedRows) :
    ∑ t, (T.thread t).toCopy L.length data = 0 := by
  refine Finset.sum_eq_zero fun t _ => ?_
  by_cases hheld : (T.thread t).held = 0
  · exact toCopy_of_held hheld
  · have hne : (T.thread t).buildStage ≠ .sorted := fun heq => hstg ((h.agree t hheld).1.symm.trans heq)
    exact toCopy_of_ne (fun b e r hcopy => hne (h.copying t b e r hcopy).1) hne

/-- While leaves are copied, the sorted rows are there. -/
theorem Inv.exists_sorted (hstg : T.buildStage = .sorted) :
    ∃ data, T.materialized = [data] ∧ T.sorted = some data := by
  have hfins := h.finalizes
  rw [h.sum_toFinalize (by rw [hstg]; decide), Nat.zero_add, dealt, hstg] at hfins
  obtain ⟨data, hdata⟩ := length_eq_one_iff.1 hfins
  refine ⟨data, hdata, h.sorted.trans ?_⟩
  rw [if_neg (by rw [hstg]; decide), hdata]
  rfl

end

/-- A thread that has nothing to do for its task completes it. -/
theorem Inv.proceed_complete (hheld : (T.thread t).held = 1) (hcomb : (T.thread t).toCombine = 0)
    (hfin : (T.thread t).toFinalize = 0)
    (hcopy : ∀ data ∈ T.materialized, (T.thread t).toCopy L.length data = 0) : Inv L (T.proceed t .complete) := by
  have hagr := h.agree t (by rw [hheld]; exact one_ne_zero)
  exact h.same (fun _ => hagr) (fun _ _ _ hcopy => nomatch hcopy) (fun _ => hheld.symm)
    ((if_neg fun h => nomatch h.1).trans hcomb.symm) ((if_neg fun h => nomatch h.1).trans hfin.symm)
    fun data hdata => (hcopy data hdata).symm

/-- The tasks after the last stage have nothing to do. -/
theorem Inv.finish (hidle : (T.thread t).held = 0) (hstg : T.buildStage = .finished) : Inv L (T.finish t) := by
  have hsm := h.same (t := t) (y := { T.thread t with progress := .execute, buildStage := .finished })
    (fun _ => ⟨hstg.symm, absurd hstg⟩) (fun b e r hcopy => nomatch hcopy) (fun hne => absurd hstg hne)
    ((toCombine_of_held hidle).symm ▸ if_neg fun h => nomatch h.2)
    ((toFinalize_of_held hidle).symm ▸ if_neg fun h => nomatch h.2)
    fun data _ => (toCopy_of_held hidle).symm ▸ toCopy_of_ne (fun b e r hcopy => nomatch hcopy) nofun
  have htree : T.finish t = { T with
      thread := Function.update T.thread t { T.thread t with progress := .execute, buildStage := .finished } } := by
    rw [MergeSortStaging.finish, ← hstg]
  rw [htree]
  exact hsm

variable (hexec : (T.thread t).progress = .execute)
include hexec

theorem Inv.executeCombine (hcomb : (T.thread t).buildStage = .combine) (data : SortedRows) :
    Inv L (T.executeSortTask t data) := by
  have hstg : T.buildStage = .combine := (h.stage_of_execute hexec).symm.trans hcomb
  have hne : T.buildStage ≠ .finished := by
    rw [hstg]
    decide
  have htsk : (T.thread t).toCombine = {(T.thread t).buildTask} := if_pos ⟨hexec, hcomb⟩
  have hheld : (T.thread t).held ≠ 0 := (held_of_execute hexec).symm ▸ one_ne_zero
  have hlt : (T.thread t).buildTask < L.length := by
    have hle := h.assigned_le
    rw [h.total, hstg] at hle
    exact ((h.agree t hheld).2 hne).trans_le hle
  have hfail : (T.failed || decide (T.localSinks.length ≤ (T.thread t).buildTask)) = T.failed := by
    rw [h.localSinks hne, decide_eq_false (not_le.2 hlt), Bool.or_false]
  rw [executeSortTask, hcomb]
  rw [hfail]
  refine h.update (y := { T.thread t with progress := .complete }) (fun _ => h.agree t hheld)
    (fun b e r hcopy => nomatch hcopy) (fun _ => ?_) (fun _ => ?_) ?_ ?_ (fun data _ => ?_) h.not_copied
  · rw [held_of_execute hexec]
    rfl
  · rw [h.localSinks hne, h.globalSink hne, flatMap_append, flatMap_singleton]
  · rw [htsk, toCombine_complete, zero_add, ← Multiset.coe_add, add_comm]
    rfl
  · rw [toFinalize_complete, toFinalize_of_ne (.inr fun heq => nomatch hcomb.symm.trans heq)]
  · rw [toCopy_complete, toCopy_of_ne (fun b e r hcopy => nomatch hexec.symm.trans hcopy)
      fun heq => nomatch hcomb.symm.trans heq]
    rfl

theorem Inv.executeFinalize (hfin : (T.thread t).buildStage = .finalize) {data : SortedRows}
    (hdata : data.rows.Perm T.globalSink) : Inv L (T.executeSortTask t data) := by
  have hstg : T.buildStage = .finalize := (h.stage_of_execute hexec).symm.trans hfin
  have hne : T.buildStage ≠ .finished := by
    rw [hstg]
    decide
  have htsk : (T.thread t).toFinalize = 1 := if_pos ⟨hexec, hfin⟩
  have hheld : (T.thread t).held ≠ 0 := (held_of_execute hexec).symm ▸ one_ne_zero
  have hno : T.materialized = [] := by
    have hle : (T.thread t).toFinalize ≤ ∑ t, (T.thread t).toFinalize :=
      Finset.single_le_sum (f := fun t => (T.thread t).toFinalize) (fun _ _ => Nat.zero_le _) (Finset.mem_univ t)
    have hfins := h.finalizes
    have hasgn := h.assigned_le
    rw [h.total, hstg] at hasgn
    rw [dealt_of_eq hstg] at hfins
    have hone : MergeSortStage.total L.length .finalize = 1 := rfl
    exact length_eq_zero_iff.1 (by omega)
  have hcombd : T.combined.Perm (range L.length) := by
    have hcombines := h.combines
    rw [h.sum_toCombine (by rw [hstg]; decide), zero_add, Multiset.coe_eq_coe, dealt, hstg] at hcombines
    exact hcombines
  have hrs : data.rows.Perm L.flatten := by
    refine hdata.trans ?_
    rw [h.globalSink hne]
    refine (hcombd.flatMap_right _).trans (List.Perm.of_eq ?_)
    refine congrArg flatten (ext_getElem (by simp) fun i hi hi' => ?_)
    rw [getElem_map, getElem_range, getD_eq_getElem _ _ hi']
  have hmem : ∀ d ∈ T.materialized ++ [data], d = data := by
    rw [hno]
    exact fun d hd => mem_singleton.1 hd
  -- no thread copies leaves yet
  have hcopies : ∀ t', ∀ b e r, (T.thread t').progress ≠ .copy b e r := by
    intro t' b e r hcopy
    have hagr := (h.agree t' (by rw [held, hcopy]; exact one_ne_zero)).1
    rw [(h.copying t' b e r hcopy).1, hstg] at hagr
    exact nomatch hagr
  rw [executeSortTask, hfin]
  exact {
    agree := forall_thread (P := T.Executes) (fun _ => h.agree t hheld) h.agree
    copying := fun t' b e r hcopy =>
      absurd hcopy (forall_thread (P := fun th => ∀ b e r, th.progress ≠ .copy b e r)
        (by intro _ _ _ heq; exact nomatch heq) hcopies t' b e r)
    counted := fun _ => (sum_update_conserved (by rw [held_of_execute hexec]; rfl)).trans (h.counted hne)
    assigned_le := h.assigned_le
    total := h.total
    localSinks := h.localSinks
    globalSink := h.globalSink
    combines := by
      refine (sum_update_conserved (g := (T.combined : Multiset ℕ)) ?_).trans h.combines
      rw [toCombine_complete, toCombine_of_ne (.inr fun heq => nomatch hfin.symm.trans heq)]
      rfl
    finalizes := by
      refine (sum_update_conserved (g := T.materialized.length) ?_).trans h.finalizes
      rw [htsk, toFinalize_complete, length_append, Nat.zero_add, Nat.add_comm]
      rfl
    sorted := by
      change some data = if T.buildStage = .finished then none else (T.materialized ++ [data]).head?
      rw [if_neg hne, hno]
      rfl
    rows := fun d hd => (hmem d hd).symm ▸ hrs
    copied := fun d _ => by
      have hsum := sum_update_add (toCopy L.length d) T.thread t { T.thread t with progress := .complete }
      rw [toCopy_complete, toCopy_of_ne (hcopies t) (fun heq => nomatch hfin.symm.trans heq),
        add_zero, add_zero] at hsum
      refine (congrArg₂ (fun s l => s + ((l : List (ℕ × ℕ)) : Multiset (ℕ × ℕ)))
        (hsum.trans (h.sum_toCopy (by rw [hstg]; decide) d)) (h.not_copied hno)).trans ?_
      change _ = ((d.dealt L.length (T.buildStage.dealt L.length T.tasksAssigned .sorted) : List (ℕ × ℕ)) :
        Multiset (ℕ × ℕ))
      rw [hstg]
      rfl
    not_copied := fun hnil => absurd hnil (append_ne_nil_of_right_ne_nil _ (cons_ne_nil _ _))
    notFailed := h.notFailed }

/-- A task begins to copy leaves. -/
theorem Inv.buildLeaves (hsort : (T.thread t).buildStage = .sorted) : Inv L (T.buildLeaves t) := by
  have hstg : T.buildStage = .sorted := (h.stage_of_execute hexec).symm.trans hsort
  have hcomb : (T.thread t).toCombine = 0 := toCombine_of_ne (.inr fun heq => nomatch hsort.symm.trans heq)
  have hfin : (T.thread t).toFinalize = 0 := toFinalize_of_ne (.inr fun heq => nomatch hsort.symm.trans heq)
  obtain ⟨data, hdata, hrs⟩ := h.exists_sorted hstg
  have htot : T.totalTasks = L.length := h.total.trans (by rw [hstg]; rfl)
  have hheld : (T.thread t).held ≠ 0 := (held_of_execute hexec).symm ▸ one_ne_zero
  have htsk : (T.thread t).buildTask < L.length := by
    have hlt := (h.agree t hheld).2 (by rw [hstg]; decide)
    have hle := h.assigned_le
    rw [htot] at hle
    exact hlt.trans_le hle
  have hcopy : (T.thread t).toCopy L.length data = data.copies (data.blockBegin L.length (T.thread t).buildTask)
        (data.blockBegin L.length ((T.thread t).buildTask + 1)) := by
    rw [toCopy, hexec]
    exact if_pos hsort
  rw [MergeSortStaging.buildLeaves, hrs]
  dsimp only
  by_cases hemp : data.rows.length = 0
  · rw [if_pos hemp]
    refine h.proceed_complete (held_of_execute hexec) hcomb hfin fun d hd => ?_
    obtain rfl : d = data := mem_singleton.1 (hdata ▸ hd)
    rw [hcopy, SortedRows.blockBegin_of_rows hemp htsk.le, SortedRows.blockBegin_of_rows hemp htsk,
      SortedRows.copies_self]
    rfl
  · rw [if_neg hemp, htot]
    refine h.same (fun _ => h.agree t hheld) ?_ (fun _ => (held_of_execute hexec).symm)
      ((toCombine_copy _ _ _ _).trans hcomb.symm) ((toFinalize_copy _ _ _ _).trans hfin.symm) fun d hd => ?_
    · intro b e r heq
      obtain ⟨rfl, rfl, rfl⟩ := MergeSortProgress.copy.inj heq
      refine ⟨hsort, fun d hd => ?_⟩
      obtain rfl : d = data := mem_singleton.1 (hdata ▸ hd)
      exact ⟨SortedRows.blockBegin_mono _ _, SortedRows.blockBegin_le htsk, rfl⟩
    · obtain rfl : d = data := mem_singleton.1 (hdata ▸ hd)
      exact hcopy.symm

omit hexec in
/-- A task copies a block, or has copied all of its blocks. -/
theorem Inv.copyBlock {b e r : ℕ} (hcopy : (T.thread t).progress = .copy b e r) : Inv L (T.copyBlock t b e r) := by
  obtain ⟨hsort, hrng⟩ := h.copying t b e r hcopy
  have hheld : (T.thread t).held = 1 := by
    rw [held, hcopy]
  have hagr := h.agree t (by rw [hheld]; exact one_ne_zero)
  have hstg : T.buildStage = .sorted := hagr.1.symm.trans hsort
  have hcomb : (T.thread t).toCombine = 0 := toCombine_of_ne (.inr fun heq => nomatch hsort.symm.trans heq)
  have hfin : (T.thread t).toFinalize = 0 := toFinalize_of_ne (.inr fun heq => nomatch hsort.symm.trans heq)
  obtain ⟨data, hdata, hrs⟩ := h.exists_sorted hstg
  obtain ⟨hbe, hlst, hr⟩ := hrng data (hdata ▸ mem_singleton_self data)
  have htoCopy : (T.thread t).toCopy L.length data = data.copies b e := by
    rw [toCopy, hcopy]
  rw [MergeSortStaging.copyBlock, hrs]
  dsimp only
  by_cases hlt : b < e
  · have hchk : b < data.chunks.chunks.length := hlt.trans_le hlst
    rw [if_pos ⟨hlt, hchk⟩]
    refine h.update (fun _ => hagr) ?_ (fun _ => by rw [hheld]; rfl) h.globalSink
      (by rw [hcomb, toCombine_copy]; rfl) ((toFinalize_copy _ _ _ _).trans hfin.symm)
      (fun d hd => ?_) fun hnil => nomatch hdata.symm.trans hnil
    · intro b' e' r' heq
      obtain ⟨rfl, rfl, rfl⟩ := MergeSortProgress.copy.inj heq
      refine ⟨hsort, fun d hd => ?_⟩
      obtain rfl : d = data := mem_singleton.1 (hdata ▸ hd)
      exact ⟨hlt, hlst, by rw [hr, ChunkedRows.position_succ hchk]⟩
    · obtain rfl : d = data := mem_singleton.1 (hdata ▸ hd)
      rw [htoCopy, toCopy_copy, SortedRows.copies_of_lt hlt, hr, ← Multiset.coe_add, ← Multiset.coe_add,
        add_comm (T.leaves : Multiset (ℕ × ℕ)), add_left_comm, add_assoc]
  · rw [if_neg fun h => hlt h.1]
    refine h.proceed_complete hheld hcomb hfin fun d hd => ?_
    obtain rfl : d = data := mem_singleton.1 (hdata ▸ hd)
    rw [htoCopy, le_antisymm hbe (not_lt.1 hlt), SortedRows.copies_self]
    rfl

end

/-! ## Steps -/

/-- A stage that has begun has handed out a task. -/
def Begun (T : MergeSortStaging ι) : Prop := T.buildStage = .finalize → T.tasksAssigned = 1

theorem Inv.enter_assign (h : Inv L T) (hstg : T.buildStage ≠ .finished) (hσ : σ ≠ .finished)
    (hcompl : ¬ T.tasksCompleted < T.tasksAssigned) (hdealt : ∀ τ, σ.dealt L.length 0 τ = T.dealt L τ)
    (htot : 0 < σ.total L.length) : Inv L ((T.enter σ (σ.total L.length)).assign t) :=
  (h.enter (h.held_eq_zero hstg hcompl) hstg hσ hdealt).assign (h.held_eq_zero hstg hcompl t) htot hσ

omit [DecidableEq ι] in
/-- When the rows are measured, they have been materialised. -/
theorem Inv.measurePayloadBlocks_eq (h : Inv L T) (hstg : T.buildStage = .finalize) (hbegun : T.Begun)
    (hcompl : ¬ T.tasksCompleted < T.tasksAssigned) : T.measurePayloadBlocks = T := by
  have hne : T.buildStage ≠ .finished := hstg ▸ nofun
  have hidle := h.held_eq_zero hne hcompl
  have hfins := h.finalizes
  rw [Finset.sum_eq_zero fun t _ => toFinalize_of_held (hidle t), Nat.zero_add, dealt_of_eq hstg,
    hbegun hstg] at hfins
  obtain ⟨data, hdata⟩ := length_eq_one_iff.1 hfins
  have hsort : T.sorted.isNone = false := by
    rw [h.sorted, if_neg hne, hdata]
    rfl
  rw [measurePayloadBlocks, hsort, Bool.or_false]

theorem Inv.tryPrepareSortStage (h : Inv L T) (hL : 0 < L.length) (hbegun : T.Begun)
    (hidle : (T.thread t).held = 0) : Inv L (T.tryPrepareSortStage t) := by
  have hle := h.assigned_le
  have htot := h.total
  have hlocal := h.localSinks
  rw [MergeSortStaging.tryPrepareSortStage]
  cases hstg : T.buildStage with
  | init =>
    rw [hstg] at htot hlocal
    have hasgn : T.tasksAssigned = 0 := Nat.le_zero.1 (hle.trans_eq htot)
    rw [hlocal nofun]
    refine h.enter_assign (hstg ▸ nofun) nofun (hasgn ▸ Nat.not_lt_zero _) (fun τ => ?_) hL
    rw [dealt, hstg, hasgn]
    cases τ <;> rfl
  | combine =>
    rw [hstg] at htot
    by_cases hlt : T.tasksAssigned < T.totalTasks
    · rw [if_pos hlt]
      exact h.assign hidle hlt (hstg ▸ nofun)
    · rw [if_neg hlt]
      by_cases hcompl : T.tasksCompleted < T.tasksAssigned
      · rw [if_pos hcompl]
        exact h.replace hidle rfl
      · rw [if_neg hcompl]
        have hasgn : T.tasksAssigned = L.length := (le_antisymm hle (not_lt.1 hlt)).trans htot
        refine h.enter_assign (hstg ▸ nofun) (σ := .finalize) nofun hcompl (fun τ => ?_) Nat.one_pos
        rw [dealt, hstg, hasgn]
        cases τ <;> rfl
  | finalize =>
    rw [hstg] at hlocal
    dsimp only
    by_cases hcompl : T.tasksCompleted < T.tasksAssigned
    · rw [if_pos hcompl]
      exact h.replace hidle rfl
    · rw [if_neg hcompl]
      have hdealt : ∀ τ, MergeSortStage.sorted.dealt L.length 0 τ = T.dealt L τ := by
        intro τ
        rw [dealt, hstg, hbegun hstg]
        cases τ <;> rfl
      rw [h.measurePayloadBlocks_eq hstg hbegun hcompl, hlocal nofun]
      exact h.enter_assign (hstg ▸ nofun) (σ := .sorted) nofun hcompl hdealt hL
  | sorted =>
    rw [hstg] at htot
    dsimp only
    by_cases hlt : T.tasksAssigned < T.totalTasks
    · rw [if_pos hlt]
      exact h.assign hidle hlt (hstg ▸ nofun)
    · rw [if_neg hlt]
      by_cases hcompl : T.tasksCompleted < T.tasksAssigned
      · rw [if_pos hcompl]
        exact h.replace (y := { T.thread t with progress := .test, buildStage := .finished }) hidle rfl
      · rw [if_neg hcompl]
        have hasgn : T.tasksAssigned = L.length := (le_antisymm hle (not_lt.1 hlt)).trans htot
        exact (h.release (h.held_eq_zero (hstg ▸ nofun) hcompl) hstg hasgn).finish hidle rfl
  | finished =>
    exact h.finish hidle hstg

omit [Fintype ι] in
theorem Begun.tryPrepareSortStage (h : T.Begun) : (T.tryPrepareSortStage t).Begun := by
  rw [MergeSortStaging.tryPrepareSortStage]
  cases hstg : T.buildStage with
  | init => exact nofun
  | combine =>
    dsimp only
    split_ifs
    iterate 2
      · exact fun hfin => nomatch hstg.symm.trans hfin
    · exact fun _ => rfl
  | finalize =>
    dsimp only
    split_ifs
    · exact h
    · exact nofun
  | sorted =>
    dsimp only
    split_ifs
    iterate 2
      · exact fun hfin => nomatch hstg.symm.trans hfin
    · exact nofun
  | finished => exact nofun

omit [Fintype ι] in
/-- Only the preparation of a task changes the stage and the number of tasks that have been handed out. -/
theorem step_of_ne (hprepare : (T.thread t).progress ≠ .prepare) (data : SortedRows) :
    (T.step t data).buildStage = T.buildStage ∧ (T.step t data).tasksAssigned = T.tasksAssigned := by
  rw [step]
  cases hprog : (T.thread t).progress with
  | test =>
    dsimp only
    split_ifs <;> exact ⟨rfl, rfl⟩
  | prepare => exact absurd hprog hprepare
  | execute =>
    dsimp only
    rw [executeSortTask]
    cases (T.thread t).buildStage with
    | init => exact ⟨rfl, rfl⟩
    | combine => exact ⟨rfl, rfl⟩
    | finalize => exact ⟨rfl, rfl⟩
    | sorted =>
      dsimp only
      rw [MergeSortStaging.buildLeaves]
      cases T.sorted with
      | none => exact ⟨rfl, rfl⟩
      | some data =>
        dsimp only
        split_ifs <;> exact ⟨rfl, rfl⟩
    | finished => exact ⟨rfl, rfl⟩
  | copy b e r =>
    dsimp only
    rw [MergeSortStaging.copyBlock]
    cases T.sorted with
    | none => exact ⟨rfl, rfl⟩
    | some data =>
      dsimp only
      split_ifs <;> exact ⟨rfl, rfl⟩
  | complete => exact ⟨rfl, rfl⟩
  | returned => exact ⟨rfl, rfl⟩

omit [Fintype ι] in
theorem Begun.step (h : T.Begun) (data : SortedRows) : (T.step t data).Begun := by
  by_cases hprepare : (T.thread t).progress = .prepare
  · rw [MergeSortStaging.step, hprepare]
    exact h.tryPrepareSortStage
  · obtain ⟨hstg, hasgn⟩ := step_of_ne hprepare data
    rw [Begun, hstg, hasgn]
    exact h

/-- Every step keeps to the invariant. -/
theorem Inv.step (h : Inv L T) (hL : 0 < L.length) (hbegun : T.Begun) {data : SortedRows}
    (hdata : data.rows.Perm T.globalSink) : Inv L (T.step t data) := by
  rw [MergeSortStaging.step]
  cases hprog : (T.thread t).progress with
  | test =>
    have hidle : (T.thread t).held = 0 := by
      rw [held, hprog]
    split_ifs
    · exact h.replace hidle rfl
    · exact h.replace hidle rfl
  | prepare =>
    have hidle : (T.thread t).held = 0 := by
      rw [held, hprog]
    exact h.tryPrepareSortStage hL hbegun hidle
  | execute =>
    have hemp : (T.thread t).buildStage ≠ .combine → (T.thread t).buildStage ≠ .finalize →
        (T.thread t).buildStage ≠ .sorted → Inv L (T.proceed t .complete) := fun hcomb hfin hsort =>
      h.proceed_complete (held_of_execute hprog) (toCombine_of_ne (.inr hcomb))
        (toFinalize_of_ne (.inr hfin)) fun data _ =>
          toCopy_of_ne (fun b e r hcopy => nomatch hprog.symm.trans hcopy) hsort
    cases hstg : (T.thread t).buildStage with
    | init =>
      rw [hstg] at hemp
      rw [executeSortTask, hstg]
      exact hemp nofun nofun nofun
    | combine => exact h.executeCombine hprog hstg data
    | finalize => exact h.executeFinalize hprog hstg hdata
    | sorted =>
      rw [executeSortTask, hstg]
      exact h.buildLeaves hprog hstg
    | finished =>
      rw [hstg] at hemp
      rw [executeSortTask, hstg]
      exact hemp nofun nofun nofun
  | copy b e r => exact h.copyBlock hprog
  | complete =>
    have hheld : (T.thread t).held = 1 := by
      rw [held, hprog]
    have hno : held { T.thread t with progress := .test } = 0 := rfl
    refine h.update (y := { T.thread t with progress := .test }) (absurd hno) (copies_of_held hno) (fun _ => ?_)
      h.globalSink ?_ ?_ (fun data _ => ?_) h.not_copied
    · rw [hheld, hno, Nat.zero_add, Nat.add_comm]
    · rw [toCombine_of_held hno, toCombine_of_ne (.inl fun heq => nomatch hprog.symm.trans heq)]
      rfl
    · rw [toFinalize_of_held hno, toFinalize_of_ne (.inl fun heq => nomatch hprog.symm.trans heq)]
    · rw [toCopy_of_held hno, toCopy, hprog]
      rfl
  | returned => exact h

/-! ## Runs -/

section

omit [DecidableEq ι] [Fintype ι]

/-- A thread executes a task of a stage, or has executed it and has not yet been counted. -/
def Runs (T : MergeSortStaging ι) (t : ι) (σ : MergeSortStage) : Prop :=
  (T.thread t).held ≠ 0 ∧ (T.thread t).buildStage = σ

/-- What the stages guarantee. -/
structure Staged (L : List (List ℕ)) (T : MergeSortStaging ι) : Prop where
  /-- No data is accessed that is not there. -/
  notFailed : T.failed = false
  combined_nodup : T.combined.Nodup
  /-- All local sorts have been combined before the rows are materialised. -/
  combined : (T.materialized ≠ [] ∨ ∃ t, T.Runs t .finalize) → T.combined.Perm (List.range L.length)
  single : T.materialized.length ≤ 1
  rows : ∀ data ∈ T.materialized, data.rows.Perm L.flatten
  /-- Leaves are copied from the materialised rows, no leaf twice. -/
  copies : (T.leaves ≠ [] ∨ ∃ t, T.Runs t .sorted) → ∃ data, T.materialized = [data] ∧
    T.leaves.Subperm data.allLeaves ∧ ((∃ t, T.Runs t .sorted) → T.sorted = some data)
  /-- The rows are released after all leaves have been copied. -/
  released : (T.buildStage = .finished ∨ T.materialized ≠ [] ∧ T.sorted = none) → (∀ t, ¬ T.Runs t .sorted) ∧
    ∃ data, T.materialized = [data] ∧ T.leaves.Perm data.allLeaves

end

section

variable (h : Inv L T)
include h

omit [DecidableEq ι]

theorem Inv.combined_perm (hstg : 1 < T.buildStage.toIdx) : T.combined.Perm (List.range L.length) := by
  have hne : T.buildStage ≠ .combine := fun heq => absurd (heq ▸ hstg) (by decide)
  have hcombines := h.combines
  have hafter : ¬ T.buildStage.toIdx < MergeSortStage.combine.toIdx := hstg.not_gt
  rw [h.sum_toCombine hne, zero_add, Multiset.coe_eq_coe, dealt, MergeSortStage.dealt, if_neg hne,
    if_neg hafter] at hcombines
  exact hcombines

theorem Inv.combined_nodup : T.combined.Nodup := by
  have hle : (T.combined : Multiset ℕ) ≤ (range (T.dealt L .combine) : Multiset ℕ) :=
    h.combines ▸ Multiset.le_add_left _ _
  exact Multiset.coe_nodup.1 (Multiset.nodup_of_le hle (Multiset.coe_nodup.2 nodup_range))

/-- Rows are materialised by one task. -/
theorem Inv.length_materialized_le : T.materialized.length ≤ T.dealt L .finalize := h.finalizes ▸ Nat.le_add_left _ _

theorem Inv.dealt_finalize_le : T.dealt L .finalize ≤ 1 := by
  rw [dealt, MergeSortStage.dealt]
  by_cases hstg : T.buildStage = .finalize
  · have hle := h.assigned_le
    rw [h.total, hstg] at hle
    rw [if_pos hstg]
    exact hle
  · split_ifs
    · exact Nat.zero_le _
    · exact le_rfl

theorem Inv.stage_of_materialized (hne : T.materialized ≠ []) : 1 < T.buildStage.toIdx := by
  have hlen := h.length_materialized_le
  have hpos : 0 < T.materialized.length := length_pos_iff.2 hne
  rw [dealt] at hlen
  cases hstg : T.buildStage with
  | init | combine =>
    rw [hstg] at hlen
    exact absurd hlen (not_le.2 hpos)
  | finalize => decide
  | sorted => decide
  | finished => decide

theorem Inv.dealt_sorted_le : T.dealt L .sorted ≤ L.length := by
  rw [dealt, MergeSortStage.dealt]
  by_cases hstg : T.buildStage = .sorted
  · have hle := h.assigned_le
    rw [h.total, hstg] at hle
    rw [if_pos hstg]
    exact hle
  · split_ifs
    · exact Nat.zero_le _
    · exact le_rfl

/-- No leaf is copied twice. -/
theorem Inv.leaves_subperm (hL : 0 < L.length) {data : SortedRows} (hdata : data ∈ T.materialized) :
    T.leaves.Subperm data.allLeaves := by
  have hle : (T.leaves : Multiset (ℕ × ℕ)) ≤ (data.dealt L.length (T.dealt L .sorted) : Multiset (ℕ × ℕ)) :=
    h.copied data hdata ▸ Multiset.le_add_left _ _
  have hsub : List.Sublist (data.dealt L.length (T.dealt L .sorted)) (data.dealt L.length L.length) :=
    (range_sublist.2 h.dealt_sorted_le).flatMap _
  exact (Multiset.coe_le.1 hle).trans (data.dealt_all hL ▸ hsub.subperm)

/-- At the end, all leaves have been copied. -/
theorem Inv.leaves_perm (hL : 0 < L.length) (hstg : T.buildStage = .finished) :
    ∃ data, T.materialized = [data] ∧ T.leaves.Perm data.allLeaves := by
  have hfins := h.finalizes
  rw [h.sum_toFinalize (hstg ▸ nofun), Nat.zero_add, dealt, hstg] at hfins
  obtain ⟨data, hdata⟩ := length_eq_one_iff.1 hfins
  have hcop := h.copied data (hdata ▸ mem_singleton_self data)
  rw [h.sum_toCopy (hstg ▸ nofun), zero_add, Multiset.coe_eq_coe, dealt, hstg] at hcop
  exact ⟨data, hdata, data.dealt_all hL ▸ hcop⟩

theorem Inv.staged (hL : 0 < L.length) : Staged L T where
  notFailed := h.notFailed
  combined_nodup := h.combined_nodup
  combined hfinal := h.combined_perm <| by
    rcases hfinal with hne | ⟨t, hheld, hstg⟩
    · exact h.stage_of_materialized hne
    · rw [(h.agree t hheld).1.symm.trans hstg]
      decide
  single := h.length_materialized_le.trans h.dealt_finalize_le
  rows := h.rows
  copies hcopies := by
    have hne : T.materialized ≠ [] := by
      intro hnil
      rcases hcopies with hlvs | ⟨t, hheld, hstg⟩
      · exact hlvs (h.not_copied hnil)
      · obtain ⟨data, hdata, -⟩ := h.exists_sorted ((h.agree t hheld).1.symm.trans hstg)
        exact nomatch hnil.symm.trans hdata
    have hlen := h.length_materialized_le.trans h.dealt_finalize_le
    obtain ⟨data, hdata⟩ := length_eq_one_iff.1 (le_antisymm hlen (length_pos_iff.2 hne))
    refine ⟨data, hdata, h.leaves_subperm hL (hdata ▸ mem_singleton_self data), fun ⟨t, hheld, hstg⟩ => ?_⟩
    obtain ⟨data', hdata', hsort⟩ := h.exists_sorted ((h.agree t hheld).1.symm.trans hstg)
    rw [hsort, singleton_inj.1 (hdata.symm.trans hdata')]
  released hrel := by
    have hstg : T.buildStage = .finished := by
      rcases hrel with hstg | ⟨hne, hno⟩
      · exact hstg
      · by_contra hstg
        rw [h.sorted, if_neg hstg, head?_eq_none_iff] at hno
        exact hne hno
    exact ⟨fun t hruns => (nomatch hruns.2.symm.trans ((h.agree t hruns.1).1.trans hstg)), h.leaves_perm hL hstg⟩

end

end MergeSortStaging

end WfOpt

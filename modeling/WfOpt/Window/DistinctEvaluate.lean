import WfOpt.Window.DistinctLinks
import WfOpt.Window.MergeSortTreeAggregate
import WfOpt.Window.SegmentTreeBuild

/-!
# The states of distinct values

The state of an element of a run has the rows of the run up to it, without those that are linked to a row of the run
(`DistinctAggregator.runState`). The elements that have no link into the frame come first in a run, and their links
do not reach into it either, so that the state of the last of them has exactly these rows.
-/

namespace WfOpt

open List Nat

namespace DistinctAggregator

variable {V σ : Type*} [LinearOrder V] [CommMonoid σ] {T : DistinctAggregator V σ}

/-! ## Queues -/

theorem mulState_self (states : ℕ → σ) (target : ℕ) (x : σ) :
    mulState states target x target = states target * x := if_pos rfl

theorem mulState_of_ne (states : ℕ → σ) {i target : ℕ} (x : σ) (h : i ≠ target) :
    mulState states target x i = states i := if_neg h

theorem mulState_comm (states : ℕ → σ) (i j : ℕ) (x y : σ) :
    mulState (mulState states i x) j y = mulState (mulState states j y) i x := by
  funext k
  simp only [mulState]
  split_ifs
  · exact mul_right_comm _ _ _
  · rfl
  · rfl
  · rfl

/-- What the states will be, once the queues are flushed. -/
def pending (T : DistinctAggregator V σ) (s : StateBuild σ) : ℕ → σ := (T.flush s).states

theorem pending_flush (s : StateBuild σ) : T.pending (T.flush s) = T.pending s := rfl

/-- Combinations that do not involve a state can be done before it is updated. -/
theorem foldl_combine_mulState {combines : List (ℕ × ℕ)} {target : ℕ}
    (h : ∀ c ∈ combines, c.1 ≠ target ∧ c.2 ≠ target) (states : ℕ → σ) (x : σ) :
    combines.foldl (fun states c => mulState states c.2 (states c.1)) (mulState states target x) =
      mulState (combines.foldl (fun states c => mulState states c.2 (states c.1)) states)
        target x := by
  induction combines generalizing states with
  | nil => rfl
  | cons c combines ih =>
    rw [forall_mem_cons] at h
    rw [foldl_cons, foldl_cons, mulState_of_ne states x h.1.1, mulState_comm, ih h.2]

/-- What is queued only involves states before `P`, and the cursor is in the collection. -/
structure QueuedBefore (T : DistinctAggregator V σ) (P : ℕ) (s : StateBuild σ) : Prop where
  combines : ∀ c ∈ s.combines, c.1 < P ∧ c.2 < P
  cursor : s.cursor.chunkIndex ≤ T.collection.chunks.length

variable {s : StateBuild σ}

theorem QueuedBefore.flush {P : ℕ} (h : T.QueuedBefore P s) : T.QueuedBefore P (T.flush s) :=
  ⟨fun _ hc => absurd hc not_mem_nil, h.cursor⟩

theorem QueuedBefore.mono {P P' : ℕ} (h : T.QueuedBefore P s) (hP : P ≤ P') : T.QueuedBefore P' s :=
  ⟨fun c hc => ⟨(h.combines c hc).1.trans_le hP, (h.combines c hc).2.trans_le hP⟩, h.cursor⟩

theorem seekRow_spec {P row : ℕ} (h : T.QueuedBefore P s) (hrow : row < T.collection.count) :
    T.QueuedBefore P (T.seekRow s row) ∧ T.pending (T.seekRow s row) = T.pending s ∧
      (T.seekRow s row).cursor.rowIsVisible T.collection row = true := by
  rw [seekRow]
  split_ifs with hv
  · exact ⟨h, rfl, hv⟩
  · exact ⟨⟨fun c hc => absurd hc not_mem_nil, WindowCursor.seek_le h.cursor⟩, rfl,
      WindowCursor.rowIsVisible_seek hrow h.cursor⟩

theorem pushUpdate_spec {P row : ℕ} (h : T.QueuedBefore P s) (hrow : row < T.collection.count) :
    T.QueuedBefore P (T.pushUpdate s P row) ∧
      T.pending (T.pushUpdate s P row) = mulState (T.pending s) P (T.rowState (T.args row)) := by
  obtain ⟨hs, hpend, hvis⟩ := seekRow_spec h hrow
  rw [pushUpdate, ← hpend]
  generalize T.seekRow s row = s at hs hvis
  refine ⟨⟨hs.combines, hs.cursor⟩, ?_⟩
  have hoff : s.cursor.currentRowIndex T.collection + s.cursor.rowOffset T.collection row = row := by
    exact Nat.add_sub_cancel' (WindowCursor.rowIsVisible_iff.1 hvis).2
  simp only [pending, DistinctAggregator.flush, foldl_append, foldl_cons, foldl_nil, hoff]
  exact foldl_combine_mulState
    (fun c hc => ⟨(hs.combines c hc).1.ne, (hs.combines c hc).2.ne⟩) _ _

theorem pushCombine_spec {P source : ℕ} (h : T.QueuedBefore P s) (hsrc : source < P) :
    T.QueuedBefore (P + 1) (pushCombine s (some source) P) ∧ T.pending (pushCombine s (some source) P) =
        mulState (T.pending s) P (T.pending s source) := by
  refine ⟨⟨fun c hc => ?_, h.cursor⟩, ?_⟩
  · rcases mem_append.1 hc with hc | hc
    · exact ((h.mono (le_succ P)).combines c hc)
    · rw [mem_singleton.1 hc]
      exact ⟨hsrc.trans (lt_succ_self P), lt_succ_self P⟩
  · simp only [pending, DistinctAggregator.flush, pushCombine, foldl_append, foldl_cons, foldl_nil]

theorem flushFull_spec {P : ℕ} (h : T.QueuedBefore P s) :
    T.QueuedBefore P (T.flushFull s) ∧ T.pending (T.flushFull s) = T.pending s := by
  rw [flushFull]
  split_ifs
  · exact ⟨h.flush, pending_flush s⟩
  · exact ⟨h, rfl⟩

/-! ## States of a run -/

variable {zipped : MergeSortTree (ℕ ×ₗ ℕ)}

/-- What an element adds to a run that starts at `i`: its row, if it is not linked into the run. -/
def elementState (T : DistinctAggregator V σ) (i : ℕ) (e : ℕ ×ₗ ℕ) : σ :=
  if (ofLex e).1 < i + 1 then T.rowState (T.args (ofLex e).2) else 1

/-- The state of the element `j` of a run that starts at `i`. -/
def runState (T : DistinctAggregator V σ) (zipped : MergeSortTree (ℕ ×ₗ ℕ)) (level i j : ℕ) : σ :=
  ((List.range' i (j + 1 - i)).map fun k => T.elementState i (zipped.elements level k)).prod

omit [LinearOrder V] in
theorem runState_self (level i : ℕ) : T.runState zipped level i i = T.elementState i (zipped.elements level i) := by
  rw [runState, Nat.add_sub_cancel_left]
  simp

omit [LinearOrder V] in
theorem runState_succ {level i j : ℕ} (h : i ≤ j) : T.runState zipped level i (j + 1) =
      T.runState zipped level i j * T.elementState i (zipped.elements level (j + 1)) := by
  rw [runState, runState, show j + 1 + 1 - i = j + 1 - i + 1 by omega, range'_concat,
    map_append, prod_append, map_singleton, prod_singleton, Nat.one_mul,
    Nat.add_sub_cancel' (by omega)]

/-- The state of an element of a level. -/
def levelState (T : DistinctAggregator V σ) (zipped : MergeSortTree (ℕ ×ₗ ℕ)) (level j : ℕ) : σ :=
  T.runState zipped level (j / MergeSortTree.levelWidth level * MergeSortTree.levelWidth level) j

/-- The states before `P` are built, and the others are not touched. -/
structure StatesTo (T : DistinctAggregator V σ) (zipped : MergeSortTree (ℕ ×ₗ ℕ)) (P : ℕ)
    (s : StateBuild σ) : Prop where
  queued : T.QueuedBefore P s
  built : ∀ level j, j < zipped.count → level * zipped.count + j < P →
    T.pending s (level * zipped.count + j) = T.levelState zipped level j
  rest : ∀ p, P ≤ p → T.pending s p = 1

theorem StatesTo.buildState {level i j : ℕ}
    (h : T.StatesTo zipped (level * zipped.count + j) s) (hj : j < zipped.count)
    (hi : j / MergeSortTree.levelWidth level * MergeSortTree.levelWidth level = i)
    (hrow : (ofLex (zipped.elements level j)).2 < T.collection.count) :
    T.StatesTo zipped (level * zipped.count + (j + 1)) (T.buildState zipped level i s j) := by
  obtain ⟨P, hP⟩ : ∃ P, P = level * zipped.count + j := ⟨_, rfl⟩
  obtain ⟨e, he⟩ : ∃ e, e = zipped.elements level j := ⟨_, rfl⟩
  rw [← hP] at h
  rw [← he] at hrow
  -- The row of the element is added, if it is to be.
  obtain ⟨s₁, hs₁⟩ : ∃ s₁, s₁ = if (ofLex e).1 < i + 1 then T.pushUpdate s P (ofLex e).2 else s := ⟨_, rfl⟩
  have hupd : T.QueuedBefore P s₁ ∧ T.pending s₁ = mulState (T.pending s) P (T.elementState i e) := by
    rw [hs₁, elementState]
    split_ifs
    · exact pushUpdate_spec h.queued hrow
    · refine ⟨h.queued, ?_⟩
      funext p
      rw [mulState, mul_one, ite_self]
  -- The state before is combined with it, if there is one.
  obtain ⟨s₂, hs₂⟩ : ∃ s₂, s₂ = pushCombine s₁ (if j = i then none else some (P - 1)) P := ⟨_, rfl⟩
  have hle : i ≤ j := hi ▸ div_mul_le_self _ _
  have hcomb : T.QueuedBefore (P + 1) s₂ ∧ T.pending s₂ P = T.levelState zipped level j ∧
      ∀ p, p ≠ P → T.pending s₂ p = T.pending s p := by
    have hone : T.pending s₁ P = T.elementState i e := by
      rw [hupd.2, mulState_self, h.rest P le_rfl, one_mul]
    have hoth : ∀ p, p ≠ P → T.pending s₁ p = T.pending s p := by
      intro p hp
      rw [hupd.2, mulState_of_ne _ _ hp]
    rw [hs₂, levelState, hi]
    rcases hle.eq_or_lt with rfl | hlt
    · rw [if_pos rfl, runState_self, ← he]
      exact ⟨hupd.1.mono (le_succ P), hone, hoth⟩
    · rw [if_neg hlt.ne']
      obtain ⟨j, rfl⟩ : ∃ k, j = k + 1 := exists_eq_succ_of_ne_zero (by omega)
      obtain ⟨hqueued, hpend⟩ := pushCombine_spec hupd.1 (show P - 1 < P by omega)
      have hbef : T.pending s (P - 1) = T.runState zipped level i j := by
        have hrun : j / MergeSortTree.levelWidth level * MergeSortTree.levelWidth level = i := by
          rw [← hi]
          congr 1
          refine Nat.div_eq_of_lt_le ?_ ?_
          · omega
          · rw [Nat.mul_comm]
            exact (lt_succ_self j).trans
              (lt_mul_div_succ (j + 1) (MergeSortTree.levelWidth_pos level))
        rw [hP, show level * zipped.count + (j + 1) - 1 = level * zipped.count + j by omega,
          h.built level j (by omega) (by omega), levelState, hrun]
      refine ⟨hqueued, ?_, fun p hp => ?_⟩
      · rw [hpend, mulState_self, hone, hoth _ (by omega), hbef, runState_succ (by omega), ← he, mul_comm]
      · rw [hpend, mulState_of_ne _ _ hp, hoth p hp]
  have hbuild : T.buildState zipped level i s j = T.flushFull s₂ := by
    rw [DistinctAggregator.buildState, ← he, ← hP, ← hs₁, ← hs₂]
  obtain ⟨hqueued, hpend⟩ := flushFull_spec hcomb.1
  rw [hbuild, ← Nat.add_assoc, ← hP]
  refine ⟨hqueued, fun level' j' hj' hlt => ?_, fun p hp => ?_⟩
  · rw [hpend]
    rcases Nat.lt_succ_iff_lt_or_eq.1 hlt with hlt | heq
    · rw [hcomb.2.2 _ hlt.ne, h.built level' j' hj' hlt]
    · have hjj : j' = j := by
        have hmod := congrArg (· % zipped.count) (heq.trans hP)
        simpa [mod_eq_of_lt hj, mod_eq_of_lt hj'] using hmod
      have hll : level' = level := by
        rw [hP, hjj] at heq
        exact eq_of_mul_eq_mul_right (by omega) (Nat.add_right_cancel heq)
      rw [heq, hcomb.2.1, hjj, hll]
  · rw [hpend, hcomb.2.2 p (by omega)]
    exact h.rest p (by omega)

theorem StatesTo.buildStates {level run : ℕ} (h : T.StatesTo zipped (level * zipped.count +
      MergeSortTree.runBegin zipped.count level run) s)
    (hrow : ∀ j < zipped.count, (ofLex (zipped.elements level j)).2 < T.collection.count) :
    T.StatesTo zipped (level * zipped.count + MergeSortTree.runEnd zipped.count level run)
      (T.buildStates zipped level s run) := by
  obtain ⟨i, hi⟩ : ∃ i, i = run * MergeSortTree.levelWidth level := ⟨_, rfl⟩
  have hend : MergeSortTree.runEnd zipped.count level run =
      min zipped.count (i + MergeSortTree.levelWidth level) := by
    rw [MergeSortTree.runEnd, MergeSortTree.runBegin, succ_mul, ← hi, Nat.min_comm]
  have hbeg : MergeSortTree.runBegin zipped.count level run = min i zipped.count := by
    rw [MergeSortTree.runBegin, ← hi]
  -- The first elements of the run, by induction on their number.
  have hfold : ∀ m, i + m ≤ min zipped.count (i + MergeSortTree.levelWidth level) →
      T.StatesTo zipped (level * zipped.count + (i + m))
        ((range' i m).foldl (T.buildState zipped level i) s) := by
    intro m
    induction m with
    | zero =>
      intro hm
      rw [hbeg, Nat.min_eq_left (by omega)] at h
      exact h
    | succ m ih =>
      intro hm
      rw [range'_concat, foldl_append, Nat.one_mul]
      refine (ih (by omega)).buildState (by omega) ?_ (hrow _ (by omega))
      rw [hi]
      congr 1
      refine Nat.div_eq_of_lt_le (Nat.le_add_right _ _) ?_
      rw [succ_mul]
      omega
  have hflush : ∀ s', T.StatesTo zipped (level * zipped.count + MergeSortTree.runEnd zipped.count level run) s' →
      T.StatesTo zipped (level * zipped.count + MergeSortTree.runEnd zipped.count level run)
        (T.flush s') :=
    fun s' hs' => ⟨hs'.queued.flush, hs'.built, hs'.rest⟩
  refine hflush _ ?_
  rw [hend, ← hi]
  rcases Nat.lt_or_ge i zipped.count with hlt | hge
  · have := hfold (min zipped.count (i + MergeSortTree.levelWidth level) - i) (by omega)
    rwa [Nat.add_sub_cancel' (by omega)] at this
  · rw [show min zipped.count (i + MergeSortTree.levelWidth level) - i = 0 by omega,
      show min zipped.count (i + MergeSortTree.levelWidth level) =
        MergeSortTree.runBegin zipped.count level run by omega]
    exact h

/-- Nothing is queued. -/
def Flushed (s : StateBuild σ) : Prop := s.updates = [] ∧ s.combines = []

theorem Flushed.pending_eq (h : Flushed s) : T.pending s = s.states := by
  rw [pending, flush, h.1, h.2]
  rfl

/-- At the end of a run, nothing is queued. -/
theorem Flushed.foldl_buildStates (h : Flushed s) (level : ℕ) (runs : List ℕ) :
    Flushed (runs.foldl (T.buildStates zipped level) s) := by
  induction runs generalizing s with
  | nil => exact h
  | cons run runs ih => exact ih ⟨rfl, rfl⟩

theorem buildLevels_eq (hrow : ∀ level < zipped.size, ∀ j < zipped.count,
      (ofLex (zipped.elements level j)).2 < T.collection.count)
    {level j : ℕ} (hlev : level < zipped.size) (hj : j < zipped.count) :
    T.buildLevels zipped (level * zipped.count + j) = T.levelState zipped level j := by
  have hruns : ∀ level < zipped.size, ∀ s, T.StatesTo zipped (level * zipped.count) s →
      ∀ runs, T.StatesTo zipped (level * zipped.count + MergeSortTree.runBegin zipped.count level runs)
        ((range runs).foldl (T.buildStates zipped level) s) := by
    intro level hlev s hs runs
    induction runs with
    | zero =>
      rw [MergeSortTree.runBegin, Nat.zero_mul, Nat.zero_min]
      exact hs
    | succ runs ih =>
      rw [List.range_succ, foldl_append]
      exact ih.buildStates (hrow level hlev)
  have hlevels : ∀ levels ≤ zipped.size, ∃ s, s = (range levels).foldl (fun s level =>
        (range ((zipped.count + MergeSortTree.levelWidth level - 1) /
          MergeSortTree.levelWidth level)).foldl (T.buildStates zipped level) s)
        ⟨fun _ => 1, ⟨0⟩, [], []⟩ ∧
      T.StatesTo zipped (levels * zipped.count) s ∧ Flushed s := by
    intro levels
    induction levels with
    | zero =>
      intro _
      refine ⟨_, rfl, ⟨⟨fun c hc => absurd hc not_mem_nil, Nat.zero_le _⟩,
        fun level j _ hlt => ?_, fun p _ => rfl⟩, rfl, rfl⟩
      rw [Nat.zero_mul] at hlt
      exact absurd hlt (Nat.not_lt_zero _)
    | succ levels ih =>
      intro hle
      obtain ⟨s, hs, hstates, hflushed⟩ := ih (le_of_succ_le hle)
      refine ⟨_, rfl, ?_⟩
      rw [List.range_succ, foldl_append, ← hs]
      have hlst := hruns levels hle s hstates
        ((zipped.count + MergeSortTree.levelWidth levels - 1) / MergeSortTree.levelWidth levels)
      -- The runs of the level have all of its elements.
      have hall : MergeSortTree.runBegin zipped.count levels ((zipped.count +
          MergeSortTree.levelWidth levels - 1) / MergeSortTree.levelWidth levels) =
          zipped.count := by
        have hwid := MergeSortTree.levelWidth_pos levels
        refine Nat.min_eq_right ?_
        have := lt_mul_div_succ (zipped.count + MergeSortTree.levelWidth levels - 1) hwid
        rw [mul_succ, Nat.mul_comm] at this
        omega
      rw [hall] at hlst
      rw [succ_mul]
      exact ⟨hlst, hflushed.foldl_buildStates levels _⟩
  obtain ⟨s, hs, hstates, hflushed⟩ := hlevels zipped.size le_rfl
  rw [buildLevels, ← hs, ← hflushed.pending_eq (T := T)]
  refine hstates.built level j hj ?_
  calc level * zipped.count + j < level * zipped.count + zipped.count := by omega
    _ = (level + 1) * zipped.count := (succ_mul _ _).symm
    _ ≤ zipped.size * zipped.count := Nat.mul_le_mul_right _ hlev

/-! ## The tree of links -/

section LinkTree

variable {leaves : ℕ → ℕ ×ₗ ℕ} {level : ℕ}

theorem lt_succ_iff (p : ℕ ×ₗ ℕ) (a b : ℕ) : p < toLex (a, b + 1) ↔ p < toLex (a, b) ∨ p = toLex (a, b) := by
  obtain ⟨⟨c, d⟩, rfl⟩ := toLex.surjective p
  rw [Prod.Lex.toLex_lt_toLex, Prod.Lex.toLex_lt_toLex, toLex.injective.eq_iff, Prod.mk.injEq]
  omega

/-- What is equal to a pair is what is below its successor, but not below it. -/
theorem countP_lt_succ (l : List (ℕ ×ₗ ℕ)) (a b : ℕ) : (l.countP fun p => p < toLex (a, b + 1)) =
      (l.countP fun p => p < toLex (a, b)) + l.count (toLex (a, b)) := by
  induction l with
  | nil => rfl
  | cons p l ih =>
    rw [countP_cons, countP_cons, count_cons, ih]
    simp only [decide_eq_true_eq, lt_succ_iff, beq_iff_eq]
    by_cases heq : p = toLex (a, b)
    · rw [if_pos (Or.inr heq), if_neg (by rw [heq]; exact lt_irrefl _), if_pos heq]
      omega
    · rw [if_neg heq]
      simp only [heq, or_false]
      omega

/-- A run of the tree has the elements of the sequence at its positions. -/
theorem run_perm (h : zipped.Built leaves) (hlev : level < zipped.size) (run : ℕ) :
    let b := MergeSortTree.runBegin zipped.count level run
    let n := MergeSortTree.runEnd zipped.count level run - b
    ((range' b n).map (zipped.elements level)).Perm ((range' b n).map leaves) := by
  intro b n
  have hcnt : ∀ x, ((range' b n).map (zipped.elements level)).countP (fun p => p < x) =
      ((range' b n).map leaves).countP (fun p => p < x) := by
    intro x
    have hsort := (h.runSorted hlev run).countLt_eq x
    rw [MergeSortTree.countLt_eq_countP, MergeSortTree.countLt_eq_countP] at hsort
    rw [countP_map, countP_map]
    exact hsort
  rw [perm_iff_count]
  intro y
  obtain ⟨⟨a, c⟩, rfl⟩ := toLex.surjective y
  have h₁ := countP_lt_succ ((range' b n).map (zipped.elements level)) a c
  have h₂ := countP_lt_succ ((range' b n).map leaves) a c
  rw [hcnt, hcnt] at h₁
  omega

theorem fst_lt_iff (p : ℕ ×ₗ ℕ) (x : ℕ) : (ofLex p).1 < x ↔ p < toLex (x, 0) := by
  obtain ⟨⟨a, b⟩, rfl⟩ := toLex.surjective p
  rw [Prod.Lex.toLex_lt_toLex]
  simp

theorem countLt_fst (f : ℕ → ℕ ×ₗ ℕ) (a b x : ℕ) :
    countLt (fun i => (ofLex (f i)).1) a b x = countLt f a b (toLex (x, 0)) := by
  rw [countLt, countLt]
  simp only [fst_lt_iff]

/-- The tree of links is built, as a search for a link is one for the pairs below it. -/
theorem linkTree_built (h : zipped.Built leaves) : (linkTree zipped).Built fun i => (ofLex (leaves i)).1 := by
  refine ⟨h.size_eq, fun i hi => ?_, fun level hlev run hrun => ?_⟩
  · exact congrArg (fun p => (ofLex p).1) (h.lowest i hi)
  · have hbt := h.runs level hlev run hrun
    refine ⟨⟨fun i j hi hij hj => ?_, fun x => ?_⟩, fun hpos x c hc => ?_⟩
    · exact (Prod.Lex.monotone_fst_ofLex (hbt.mono i j hi hij hj))
    · exact (countLt_fst _ _ _ _).trans
        ((hbt.countLt_eq (toLex (x, 0))).trans (countLt_fst _ _ _ _).symm)
    · have := hbt.cascade hpos (toLex (x, 0)) c hc
      simp only [countLt_fst]
      exact this

theorem exists_leaf (h : zipped.Built leaves) (hlev : level < zipped.size) {j : ℕ}
    (hj : j < zipped.count) : ∃ i < zipped.count, zipped.elements level j = leaves i := by
  have hwid := MergeSortTree.levelWidth_pos level
  have hperm := run_perm h hlev (j / MergeSortTree.levelWidth level)
  have hmem : zipped.elements level j ∈ (range'
      (MergeSortTree.runBegin zipped.count level (j / MergeSortTree.levelWidth level))
      (MergeSortTree.runEnd zipped.count level (j / MergeSortTree.levelWidth level) -
        MergeSortTree.runBegin zipped.count level (j / MergeSortTree.levelWidth level))).map
      (zipped.elements level) := by
    refine mem_map_of_mem (mem_range'_1.2 ?_)
    have h₁ := div_mul_le_self j (MergeSortTree.levelWidth level)
    have h₂ := lt_mul_div_succ j hwid
    rw [Nat.mul_comm] at h₂
    rw [MergeSortTree.runEnd, MergeSortTree.runBegin, MergeSortTree.runBegin]
    omega
  obtain ⟨i, hi, heq⟩ := mem_map.1 (hperm.mem_iff.1 hmem)
  have hi' := mem_range'_1.1 hi
  have hend := MergeSortTree.runEnd_le zipped.count level (j / MergeSortTree.levelWidth level)
  exact ⟨i, by omega, heq.symm⟩

/-- The aggregate a call finds: that of the rows of its run without a link to a row from `lower`
    on. -/
theorem call_state (h : zipped.Built leaves) {c : MergeSortTree.AggregateCall} {lower : ℕ}
    (hc : c.Right (fun i => (ofLex (leaves i)).1) (lower + 1)) (hlev : c.level < zipped.size)
    (hend : c.runBegin + MergeSortTree.levelWidth c.level ≤ zipped.count) (hlow : lower ≤ c.runBegin) :
    (if c.runPos ≠ c.runBegin then T.levelState zipped c.level (c.runPos - 1) else 1) =
      (c.positions.map fun r => T.elementState lower (leaves r)).prod := by
  obtain ⟨run, hrun⟩ := exists_eq_mul_left_of_dvd hc.aligned
  obtain ⟨b, hb⟩ : ∃ b, b = c.runBegin := ⟨_, rfl⟩
  obtain ⟨w, hw⟩ : ∃ w, w = MergeSortTree.levelWidth c.level := ⟨_, rfl⟩
  have hbeg : MergeSortTree.runBegin zipped.count c.level run = b := by
    rw [MergeSortTree.runBegin, ← hrun, ← hb, Nat.min_eq_left (by omega)]
  have hrunEnd : MergeSortTree.runEnd zipped.count c.level run = b + w := by
    rw [MergeSortTree.runEnd, MergeSortTree.runBegin, succ_mul, ← hrun, ← hb, ← hw, Nat.min_eq_left (by omega)]
  have hsort := (linkTree_built h).runSorted hlev run
  have hperm := run_perm h hlev run
  have hmono := hsort.mono
  have hcountLt := hsort.countLt_eq (lower + 1)
  rw [show (linkTree zipped).count = zipped.count from rfl, hbeg, hrunEnd] at hmono hcountLt
  simp only [hbeg, hrunEnd, Nat.add_sub_cancel_left] at hperm
  have hpos := hc.runPos
  rw [← hb, ← hw, ← hcountLt] at hpos
  -- The elements without a link to such a row are the first ones of the run.
  obtain ⟨n, hn⟩ : ∃ n, n = countLt ((linkTree zipped).elements c.level) b (b + w) (lower + 1) := ⟨_, rfl⟩
  have hnw : n ≤ w := by
    have := countLt_le ((linkTree zipped).elements c.level) b (b + w) (lower + 1)
    omega
  have hfst : ∀ k, b ≤ k → k < b + w → ((ofLex (zipped.elements c.level k)).1 < lower + 1 ↔ k < b + n) := by
    intro k hbk hkw
    have hlt := RunKeys.lt_count_iff (f := fun i => (linkTree zipped).elements c.level (b + i))
      (n := w) (fun i j hij hj => hmono (b + i) (b + j) (by omega) (by omega) (by omega)) (lower + 1)
      (i := k - b) (by omega)
    rw [Nat.add_sub_cancel' hbk] at hlt
    rw [countLt, Nat.add_sub_cancel_left] at hn
    exact hlt.trans (by omega)
  have hlft : (if c.runPos ≠ c.runBegin then T.levelState zipped c.level (c.runPos - 1) else 1) =
      ((range' b n).map fun k => T.elementState lower (zipped.elements c.level k)).prod := by
    rw [hpos, ← hb, ← hn]
    split_ifs with hne
    · have hdiv : (b + n - 1) / MergeSortTree.levelWidth c.level *
          MergeSortTree.levelWidth c.level = b := by
        rw [hb, hrun]
        congr 1
        refine Nat.div_eq_of_lt_le (by omega) ?_
        rw [succ_mul]
        omega
      rw [levelState, hdiv, runState, show b + n - 1 + 1 - b = n by omega]
      refine congrArg prod (map_congr_left fun k hk => ?_)
      have hk' := mem_range'_1.1 hk
      have hlink := (hfst k hk'.1 (by omega)).2 hk'.2
      rw [elementState, elementState, if_pos hlink, if_pos (by omega)]
    · rw [show n = 0 by omega]
      rfl
  have hrt : ((range' b w).map fun k => T.elementState lower (zipped.elements c.level k)).prod =
      ((range' b n).map fun k => T.elementState lower (zipped.elements c.level k)).prod := by
    obtain ⟨m, rfl⟩ := Nat.exists_eq_add_of_le hnw
    have hrst : ((range' (b + n) m).map fun k =>
        T.elementState lower (zipped.elements c.level k)).prod = 1 := by
      refine prod_eq_one fun y hy => ?_
      obtain ⟨k, hk, rfl⟩ := mem_map.1 hy
      have hk' := mem_range'_1.1 hk
      rw [elementState, if_neg ((hfst k (by omega) (by omega)).not.2 (by omega))]
    rw [← range'_append_1, map_append, prod_append, hrst, mul_one]
  rw [hlft, ← hrt, MergeSortTree.AggregateCall.positions, ← hb, ← hw]
  have hprod := (hperm.map (T.elementState lower)).prod_eq
  rwa [map_map, map_map] at hprod

end LinkTree

/-! ## Frames -/

/-- What the states of the frames will be, once the queue is flushed. -/
def pendingFrames (levels : ℕ → σ) (s : FrameStates σ) : ℕ → σ := (flushStates levels s).frames

theorem pendingFrames_aggregateRun (levels : ℕ → σ) (count rid : ℕ) (s : FrameStates σ)
    (c : MergeSortTree.AggregateCall) :
    pendingFrames levels (aggregateRun levels count rid s c) = mulState (pendingFrames levels s) rid
        (if c.runPos ≠ c.runBegin then levels (c.level * count + c.runPos - 1) else 1) := by
  rw [aggregateRun]
  split_ifs with hne
  · have hpush : pendingFrames levels
        { s with queue := s.queue ++ [(rid, c.level * count + c.runPos - 1)] } =
        mulState (pendingFrames levels s) rid (levels (c.level * count + c.runPos - 1)) := by
      simp only [pendingFrames, flushStates, foldl_append, foldl_cons, foldl_nil]
    simp only
    split_ifs
    · exact hpush
    · exact hpush
  · funext i
    rw [mulState, mul_one, ite_self]

theorem pendingFrames_foldl (levels : ℕ → σ) (count rid : ℕ) (s : FrameStates σ)
    (calls : List MergeSortTree.AggregateCall) :
    pendingFrames levels (calls.foldl (aggregateRun levels count rid) s) = mulState (pendingFrames levels s) rid
        (calls.map fun c =>
          if c.runPos ≠ c.runBegin then levels (c.level * count + c.runPos - 1) else 1).prod := by
  induction calls generalizing s with
  | nil =>
    funext i
    rw [map_nil, prod_nil, mulState, mul_one, ite_self]
    rfl
  | cons c calls ih =>
    rw [foldl_cons, ih, pendingFrames_aggregateRun, map_cons, prod_cons]
    funext i
    rcases eq_or_ne i rid with rfl | hne
    · rw [mulState_self, mulState_self, mulState_self, mul_assoc]
    · rw [mulState_of_ne _ _ hne, mulState_of_ne _ _ hne, mulState_of_ne _ _ hne]

/-- The state of a frame is the product of what the calls for it find. -/
theorem evaluate_eq (tree : MergeSortTree ℕ) (levels : ℕ → σ) (frames : List (ℕ × ℕ)) {rid : ℕ}
    (hrid : rid < frames.length) :
    evaluate tree levels frames rid =
      ((tree.aggregateLowerBound (frames[rid].1 + 1) frames[rid].1 frames[rid].2).map fun c =>
        if c.runPos ≠ c.runBegin then levels (c.level * tree.count + c.runPos - 1) else 1).prod := by
  have hfold : ∀ n ≤ frames.length, ∃ s, s = (range n).foldl (fun s rid =>
      let frame := frames.getD rid (0, 0)
      (tree.aggregateLowerBound (frame.1 + 1) frame.1 frame.2).foldl
        (aggregateRun levels tree.count rid) s) (⟨fun _ => 1, []⟩ : FrameStates σ) ∧
      ∀ i, pendingFrames levels s i = if h : i < n ∧ i < frames.length then
        ((tree.aggregateLowerBound (frames[i].1 + 1) frames[i].1 frames[i].2).map fun c =>
          if c.runPos ≠ c.runBegin then levels (c.level * tree.count + c.runPos - 1) else 1).prod
        else 1 := by
    intro n
    induction n with
    | zero =>
      intro _
      refine ⟨_, rfl, fun i => ?_⟩
      rfl
    | succ n ih =>
      intro hn
      obtain ⟨s, hs, hfrms⟩ := ih (le_of_succ_le hn)
      refine ⟨_, rfl, fun i => ?_⟩
      rw [List.range_succ, foldl_append, ← hs, foldl_cons, foldl_nil, pendingFrames_foldl, getD_eq_getElem _ _ hn]
      rcases eq_or_ne i n with rfl | hne
      · rw [mulState_self, hfrms, dif_neg (fun h => absurd h.1 (lt_irrefl i)), one_mul, dif_pos ⟨lt_succ_self i, hn⟩]
      · rw [mulState_of_ne _ _ hne, hfrms]
        simp only [Nat.lt_succ_iff_lt_or_eq, hne, or_false]
  obtain ⟨s, hs, hfrms⟩ := hfold frames.length le_rfl
  rw [evaluate, ← hs]
  exact (hfrms rid).trans (dif_pos ⟨hrid, hrid⟩)

/-! ## Distinct values -/

/-- Each value of the arguments in a frame has a first row there. -/
theorem prod_first_eq (lower upper : ℕ) : (∏ r ∈ Finset.Ico lower upper,
      if T.included r = true ∧ ∀ j, lower ≤ j → j < r → T.included j = true → T.args j ≠ T.args r
        then T.rowState (T.args r) else 1) =
      ∏ v ∈ ((Finset.Ico lower upper).filter (T.included · = true)).image T.args, T.rowState v := by
  rw [← Finset.prod_filter]
  obtain ⟨first, hfst⟩ : ∃ first, first = (Finset.Ico lower upper).filter fun r =>
      T.included r = true ∧ ∀ j, lower ≤ j → j < r → T.included j = true → T.args j ≠ T.args r :=
    ⟨_, rfl⟩
  have hmem : ∀ r, r ∈ first ↔ (lower ≤ r ∧ r < upper) ∧ T.included r = true ∧
      ∀ j, lower ≤ j → j < r → T.included j = true → T.args j ≠ T.args r := by
    intro r
    rw [hfst, Finset.mem_filter, Finset.mem_Ico]
  have himage : first.image T.args = ((Finset.Ico lower upper).filter (T.included · = true)).image T.args := by
    ext v
    simp only [Finset.mem_image, Finset.mem_filter, Finset.mem_Ico]
    constructor
    · rintro ⟨r, hr, rfl⟩
      obtain ⟨hrng, hinc, -⟩ := (hmem r).1 hr
      exact ⟨r, ⟨hrng, hinc⟩, rfl⟩
    · rintro ⟨r, ⟨hrng, hinc⟩, rfl⟩
      -- The least such row with the value.
      have hex : ∃ j, lower ≤ j ∧ T.included j = true ∧ T.args j = T.args r := ⟨r, hrng.1, hinc, rfl⟩
      obtain ⟨h₁, h₂, h₃⟩ := Nat.find_spec hex
      have hle := Nat.find_min' hex ⟨hrng.1, hinc, rfl⟩
      refine ⟨Nat.find hex, (hmem _).2 ⟨⟨h₁, hle.trans_lt hrng.2⟩, h₂, fun j hj hlt hjinc heq => ?_⟩, h₃⟩
      exact Nat.find_min hex hlt ⟨hj, hjinc, heq.trans h₃⟩
  rw [← hfst, ← himage, Finset.prod_image]
  intro r hr r' hr' heq
  obtain ⟨⟨h₁, -⟩, h₂, h₃⟩ := (hmem r).1 hr
  obtain ⟨⟨h₁', -⟩, h₂', h₃'⟩ := (hmem r').1 hr'
  rcases Nat.lt_trichotomy r r' with h | h | h
  · exact absurd heq (h₃' r h₁ h h₂)
  · exact h
  · exact absurd heq.symm (h₃ r' h₁' h h₂')

theorem prod_map_positions (f : ℕ → σ) (calls : List MergeSortTree.AggregateCall) :
    (calls.map fun c => (c.positions.map f).prod).prod =
      ((calls.flatMap MergeSortTree.AggregateCall.positions).map f).prod := by
  induction calls with
  | nil => rfl
  | cons c calls ih =>
    rw [map_cons, prod_cons, ih, flatMap_cons, map_append, prod_append]

omit [LinearOrder V] [CommMonoid σ] in
theorem getD_prevIdcs (writes : List (ℕ × ℕ)) {i : ℕ} (hi : i < T.collection.count) :
    (T.prevIdcs writes).getD i default = toLex (applyLinks writes i, i) := by
  rw [getD_eq_getElem _ _ (by rw [prevIdcs, length_map, length_range]; exact hi)]
  simp [prevIdcs]

/-- The state for a frame combines one row for every value of the arguments among the rows that pass the filter,
    whatever the chunks, tasks and order of writes. -/
theorem evaluate_eq_distinct (T : DistinctAggregator V σ) {chunks : ChunkedRows} {totalTasks : ℕ}
    (hchunks : chunks.count = T.sortedRows.length) (htasks : 0 < totalTasks)
    {writes : List (ℕ × ℕ)}
    (hwrites : writes.Perm ((List.range totalTasks).flatMap (T.linkBlock chunks totalTasks)))
    {frames : List (ℕ × ℕ)} {rid : ℕ} (hrid : rid < frames.length)
    (hframe : frames[rid].2 ≤ T.collection.count) :
    let zipped := MergeSortTree.build (T.prevIdcs writes)
    evaluate (linkTree zipped) (T.buildLevels zipped) frames rid =
      ∏ v ∈ ((Finset.Ico frames[rid].1 frames[rid].2).filter (T.included · = true)).image T.args, T.rowState v := by
  intro zipped
  obtain ⟨hbt, hcnt⟩ : zipped.Built (fun i => (T.prevIdcs writes).getD i default) ∧
      zipped.count = (T.prevIdcs writes).length := MergeSortTree.build_built _
  have hcnt' : zipped.count = T.collection.count := by
    rw [hcnt, prevIdcs, length_map, length_range]
  obtain ⟨leaves, hlvs⟩ : ∃ leaves : ℕ → ℕ ×ₗ ℕ, leaves = fun i => (T.prevIdcs writes).getD i default := ⟨_, rfl⟩
  rw [← hlvs] at hbt
  have hlf : ∀ i < T.collection.count, leaves i = toLex (applyLinks writes i, i) := by
    intro i hi
    rw [hlvs]
    exact getD_prevIdcs writes hi
  have hrow : ∀ level < zipped.size, ∀ j < zipped.count,
      (ofLex (zipped.elements level j)).2 < T.collection.count := by
    intro level hlev j hj
    obtain ⟨i, hi, heq⟩ := exists_leaf hbt hlev hj
    rw [hcnt'] at hi
    rw [heq, hlf i hi]
    exact hi
  rw [evaluate_eq _ _ _ hrid]
  obtain ⟨⟨lower, upper⟩, hlu⟩ : ∃ f, f = frames[rid] := ⟨_, rfl⟩
  rw [← hlu] at hframe ⊢
  rw [← prod_first_eq]
  rcases Nat.lt_or_ge lower upper with hlt | hge
  · have hup : upper ≤ zipped.count := hcnt'.symm ▸ hframe
    have hcov := (linkTree_built hbt).covers_aggregateLowerBound hlt hup (lower + 1)
    obtain ⟨calls, hcalls⟩ :
        ∃ calls, calls = (linkTree zipped).aggregateLowerBound (lower + 1) lower upper := ⟨_, rfl⟩
    rw [← hcalls] at hcov ⊢
    -- The run of a call is within the frame.
    have hwith : ∀ c ∈ calls, lower ≤ c.runBegin ∧ c.runBegin + MergeSortTree.levelWidth c.level ≤ upper := by
      intro c hc
      have hwid := MergeSortTree.levelWidth_pos c.level
      have hmem : ∀ r, c.runBegin ≤ r → r < c.runBegin + MergeSortTree.levelWidth c.level →
          lower ≤ r ∧ r < lower + (upper - lower) := by
        intro r h₁ h₂
        refine mem_range'_1.1 (hcov.perm.mem_iff.1 (mem_flatMap.2 ⟨c, hc, ?_⟩))
        exact mem_range'_1.2 ⟨h₁, h₂⟩
      have h₁ := hmem c.runBegin le_rfl (by omega)
      have h₂ := hmem (c.runBegin + MergeSortTree.levelWidth c.level - 1) (by omega) (by omega)
      omega
    have hstate : ∀ c ∈ calls, (if c.runPos ≠ c.runBegin then
        T.buildLevels zipped (c.level * (linkTree zipped).count + c.runPos - 1) else 1) =
        (c.positions.map fun r => T.elementState lower (leaves r)).prod := by
      intro c hc
      obtain ⟨h₁, h₂⟩ := hwith c hc
      have hlev : c.level < zipped.size := by
        by_contra hge
        have htop := hbt.count_le
        have hpow : MergeSortTree.levelWidth zipped.size ≤ MergeSortTree.levelWidth c.level :=
          Nat.pow_le_pow_right (by decide) (not_lt.1 hge)
        rw [← Nat.sub_add_cancel (show 1 ≤ zipped.size from hbt.size_eq ▸ Nat.le_add_left 1 _),
          MergeSortTree.levelWidth_succ, MergeSortTree.fanout] at hpow
        omega
      rw [← call_state hbt (hcov.right c hc) hlev (h₂.trans hup) h₁]
      refine ite_congr rfl (fun hne => ?_) fun _ => rfl
      have hle := countLt_le (fun i => (ofLex (leaves i)).1) c.runBegin
        (c.runBegin + MergeSortTree.levelWidth c.level) (lower + 1)
      have hpos := (hcov.right c hc).runPos
      rw [Nat.add_sub_assoc (by omega)]
      exact buildLevels_eq hrow hlev (by omega)
    rw [map_congr_left hstate, prod_map_positions, (hcov.perm.map fun r => T.elementState lower (leaves r)).prod_eq,
      ← prod_toFinset _ nodup_range', List.toFinset_range'_1, Nat.add_sub_cancel' hlt.le]
    refine Finset.prod_congr rfl fun r hr => ?_
    rw [Finset.mem_Ico] at hr
    rw [elementState, hlf r (by omega)]
    exact if_congr (applyLinks_lt_iff hchunks htasks hwrites (by omega) hr.1) rfl rfl
  · rw [Finset.Ico_eq_empty (by omega), Finset.prod_empty, MergeSortTree.aggregateLowerBound, if_pos hge]
    rfl

/-- Four rows in two chunks, the last of which does not pass the filter. -/
def fourRows : DistinctAggregator ℕ ℕ where
  collection := ⟨[3, 1], by decide⟩
  arg row _ := [7, 5, 7, 3].getD row 0
  keyCount := 1
  filterMask := some fun row => row < 3
  rowState args := args.getD 0 1

theorem evaluate_eq_distinct_fourRows : evaluate (linkTree (MergeSortTree.build (fourRows.prevIdcs
          ((List.range 2).flatMap (fourRows.linkBlock ⟨[1, 2], by decide⟩ 2)))))
        (fourRows.buildLevels (MergeSortTree.build (fourRows.prevIdcs
          ((List.range 2).flatMap (fourRows.linkBlock ⟨[1, 2], by decide⟩ 2)))))
        [(0, 4), (1, 2)] 0 = 35 :=
  (evaluate_eq_distinct fourRows (by rw [sortedRows, length_mergeSort]; decide) (by decide)
    (List.Perm.refl _) (by decide) (by decide)).trans (by decide)

end DistinctAggregator

end WfOpt

import WfOpt.Lib.Transition
import WfOpt.Window.SegmentTreeEvaluate

/-!
# Threads that build the segment tree

Threads take the nodes of a level from a counter, and the one that completes the last of them lets all go on to the
next level (`WindowSegmentTree.finalizeStep`). In any order of their steps, a node is built once, after the level
below, and no thread leaves before all nodes are built (`WindowSegmentTree.finalizeSteps_built`). Frames are then
evaluated as on the tree of one thread (`WindowSegmentTree.finalizeSteps_evaluate`).
-/

namespace WfOpt

open Finset Function

/-- Where a thread is in the loop of `Finalize`. -/
inductive FinalizePhase
  | load
  | take (level : ℕ)
  | wait (level : ℕ)
  | build (level buildIdx : ℕ)
  | complete (level : ℕ)
  | advance
  | left
  deriving DecidableEq

/-- What threads have: nodes of a level that they have not completed, a node that they build, the task to go on to the
    next level. -/
inductive FinalizeShare
  | level (l : ℕ)
  | node (l k : ℕ)
  | advance

/-- The share of a thread in a phase. -/
@[simp] def FinalizeShare.ofPhase : FinalizeShare → FinalizePhase → ℕ
  | .level l, .build l' _ | .level l, .complete l' => if l' = l then 1 else 0
  | .node l k, .build l' k' => if (l', k') = (l, k) then 1 else 0
  | .advance, .advance => 1
  | _, _ => 0

open FinalizeShare (ofPhase)

/-- `WindowSegmentTreeGlobalState` and its threads, with how often each node of each level has been built. -/
structure FinalizeState (ι σ : Type*) where
  buildLevel : ℕ
  buildStarted : ℕ → ℕ
  buildCompleted : ℕ → ℕ
  levelsFlatNative : ℕ → σ
  builds : ℕ × ℕ → ℕ
  cursor : ι → WindowCursor
  phase : ι → FinalizePhase

variable {ι ρ σ τ : Type*} [Monoid σ]

def FinalizeState.init : FinalizeState ι σ := ⟨0, 0, 0, 1, 0, fun _ => ⟨0⟩, fun _ => .load⟩

namespace WindowSegmentTree

variable (T : WindowSegmentTree ρ σ τ)

/-- `build_count` -/
def buildCount (l : ℕ) : ℕ := (T.levelSize l + treeFanout - 1) / treeFanout

/-- A step of a thread in the loop of `Finalize`. -/
def finalizeStep [DecidableEq ι] (s : FinalizeState ι σ) (i : ι) : FinalizeState ι σ := match s.phase i with
  | .load => { s with
      phase := update s.phase i <|
        if s.buildLevel < T.levelsFlatStart.length ∧ 1 < T.levelSize s.buildLevel then .take s.buildLevel
        else .left }
  | .take l => { s with
      buildStarted := update s.buildStarted l (s.buildStarted l + 1)
      phase := update s.phase i <|
        if s.buildStarted l < T.buildCount l then .build l (s.buildStarted l) else .wait l }
  | .wait l => { s with phase := update s.phase i (if l = s.buildLevel then .wait l else .load) }
  | .build l k =>
    let p := T.buildNode { newPart s.levelsFlatNative with cursor := s.cursor i } l k
    { s with
      levelsFlatNative := fun node => p.states (.node node)
      builds := update s.builds (l, k) (s.builds (l, k) + 1)
      cursor := update s.cursor i p.cursor
      phase := update s.phase i (.complete l) }
  | .complete l => { s with
      buildCompleted := update s.buildCompleted l (s.buildCompleted l + 1)
      phase := update s.phase i (if s.buildCompleted l + 1 = T.buildCount l then .advance else .load) }
  | .advance => { s with buildLevel := s.buildLevel + 1, phase := update s.phase i .load }
  | .left => s

/-- The steps of the threads from the start of `Finalize`. -/
def finalizeSteps [DecidableEq ι] (steps : List ι) : FinalizeState ι σ := steps.foldl T.finalizeStep .init

variable (s : FinalizeState ι σ)

/-- The levels that threads in a phase can be at. -/
def AtLevel (level : ℕ) : FinalizePhase → Prop
  | .take l => l ≤ level ∧ l < T.maxLevel
  | .build l _ | .complete l => l = level ∧ l < T.maxLevel
  | .left => level = T.maxLevel
  | _ => True

/-- The shares that threads have had, and those that there have been for them. -/
def shares : FinalizeShare → ℕ × ℕ
  | .level l => (s.buildCompleted l, min (s.buildStarted l) (T.buildCount l))
  | .node l k => (s.builds (l, k), if k < min (s.buildStarted l) (T.buildCount l) then 1 else 0)
  | .advance =>
    (if s.buildLevel < T.maxLevel → s.buildCompleted s.buildLevel < T.buildCount s.buildLevel then 1 else 0, 1)

/-- Nodes that have been taken are built, or one thread builds them. -/
structure FinalizeInv [Fintype ι] : Prop where
  level : s.buildLevel ≤ T.maxLevel
  phase : ∀ i, T.AtLevel s.buildLevel (s.phase i)
  share : ∀ a, ∑ i, ofPhase a (s.phase i) + (T.shares s a).1 = (T.shares s a).2
  below : ∀ l < s.buildLevel, s.buildCompleted l = T.buildCount l
  above : ∀ l, s.buildLevel < l → s.buildStarted l = 0
  cursor : ∀ i, (s.cursor i).chunkIndex ≤ T.collection.chunks.length
  nodes : ∀ l < T.maxLevel, ∀ k < T.buildCount l, s.levelsFlatNative (T.levelStart l + k) =
    if s.builds (l, k) = 0 then 1 else levelProd T.value treeFanout (l + 1) k

/-- Each node is built by one thread, when those of the levels below are right and the others build nodes of the same
    level. When a thread leaves, all nodes have the aggregates of their rows. -/
structure BuildsOnce : Prop where
  once : ∀ l k, s.builds (l, k) ≤ 1
  building : ∀ i l k, s.phase i = .build l k → s.builds (l, k) = 0 ∧
    (∀ j l' k', s.phase j = .build l' k' → l' = l ∧ (k' = k → j = i)) ∧
    ∀ l' < l, ∀ k' < T.buildCount l', s.builds (l', k') = 1 ∧
      s.levelsFlatNative (T.levelStart l' + k') = levelProd T.value treeFanout (l' + 1) k'
  left : (∃ i, s.phase i = .left) → ∀ l < T.maxLevel, ∀ k < T.buildCount l, s.builds (l, k) = 1 ∧
    s.levelsFlatNative (T.levelStart l + k) = levelProd T.value treeFanout (l + 1) k

variable {T s} {i : ι} {l k : ℕ}

theorem buildCount_eq (hl : l < T.maxLevel) : T.buildCount l = levelBlocks T.collection.count (l + 1) := by
  rw [buildCount, levelSize_eq hl.le, levelBlocks_succ]

theorem buildCount_pos (hl : l < T.maxLevel) : 0 < T.buildCount l := by
  have hlt := one_lt_levelBlocks hl
  rw [buildCount, levelSize_eq hl.le, treeFanout]
  omega

/-- Different nodes are at different places. -/
theorem levelStart_add_inj {l' k' : ℕ} (hl : l < T.maxLevel) (hl' : l' < T.maxLevel) (hk : k < T.buildCount l)
    (hk' : k' < T.buildCount l') (heq : T.levelStart l + k = T.levelStart l' + k') : (l, k) = (l', k') := by
  have hlt : ∀ {l k l' k'}, l' < T.maxLevel → k < T.buildCount l → l < l' →
      T.levelStart l + k < T.levelStart l' + k' := by
    intro l k l' k' hl' hk hll
    have hle := levelStart_mono (T := T) (Nat.succ_le_of_lt hll) hl'.le
    rw [levelStart_succ (hll.trans hl'), ← buildCount_eq (hll.trans hl')] at hle
    omega
  rcases Nat.lt_trichotomy l l' with h | rfl | h
  · exact absurd heq (hlt hl' hk h).ne
  · rw [Nat.add_left_cancel heq]
  · exact absurd heq (hlt hl hk' h).ne'

variable [Fintype ι]

namespace FinalizeInv

theorem init : T.FinalizeInv (FinalizeState.init : FinalizeState ι σ) where
  level := Nat.zero_le _
  phase _ := trivial
  share a := by
    have hsum : ∑ i, ofPhase a ((FinalizeState.init : FinalizeState ι σ).phase i) = 0 :=
      sum_eq_zero fun _ _ => by cases a <;> rfl
    have hpos := @buildCount_pos _ _ _ _ T 0
    rw [hsum]
    cases a <;> simp [shares, FinalizeState.init]
    exact if_pos hpos
  below _ hl := absurd hl (Nat.not_lt_zero _)
  above _ _ := rfl
  cursor _ := Nat.zero_le _
  nodes _ _ _ _ := rfl

variable (h : T.FinalizeInv s)

include h

/-- A thread has its share. -/
theorem share_le (a : FinalizeShare) (i : ι) : ofPhase a (s.phase i) + (T.shares s a).1 ≤ (T.shares s a).2 := by
  rw [← h.share a]
  exact Nat.add_le_add_right
    (single_le_sum (f := fun i => ofPhase a (s.phase i)) (fun _ _ => Nat.zero_le _) (mem_univ i)) _

/-- The nodes below the level have been built. -/
theorem built (hl : l < s.buildLevel) (hk : k < T.buildCount l) :
    s.builds (l, k) = 1 ∧ s.levelsFlatNative (T.levelStart l + k) = levelProd T.value treeFanout (l + 1) k := by
  have hsum : ∑ j, ofPhase (.node l k) (s.phase j) = 0 := sum_eq_zero fun j _ => by
    have hlev := h.phase j
    cases hp : s.phase j <;> rw [hp] at hlev
    case build => exact if_neg fun heq => hl.ne ((Prod.mk.inj heq).1.symm.trans hlev.1)
    all_goals rfl
  have hlevel := h.share (.level l)
  have hnode := h.share (.node l k)
  have hbelow := h.below l hl
  simp only [hsum, shares] at hnode hlevel
  rw [if_pos (by omega), Nat.zero_add] at hnode
  exact ⟨hnode, by rw [h.nodes l (hl.trans_le h.level) k hk, hnode, if_neg Nat.one_ne_zero]⟩

variable [DecidableEq ι]

/-- Shares are passed on in a step of a thread. -/
theorem next {s' : FinalizeState ι σ} {p y : FinalizePhase} (hph : s.phase i = p)
    (hnext : s'.phase = update s.phase i y)
    (hshare : ∀ a x x', x' + ofPhase a p = x + ofPhase a y → x + (T.shares s a).1 = (T.shares s a).2 →
      x' + (T.shares s' a).1 = (T.shares s' a).2) (a : FinalizeShare) :
    ∑ i, ofPhase a (s'.phase i) + (T.shares s' a).1 = (T.shares s' a).2 := by
  rw [hnext]
  exact hshare a _ _ (hph ▸ sum_update_add (ofPhase a) s.phase i y) (h.share a)

/-- A thread goes on to a phase that is at its level. -/
theorem next_phase {y : FinalizePhase} (hy : T.AtLevel s.buildLevel y) :
    ∀ j, T.AtLevel s.buildLevel (update s.phase i y j) :=
  (forall_update_iff _ fun _ p => T.AtLevel s.buildLevel p).2 ⟨hy, fun j _ => h.phase j⟩

theorem take (hph : s.phase i = .take l) : T.FinalizeInv (T.finalizeStep s i) := by
  have hlev := h.phase i
  have hst := h.share (.level l)
  have hbelow := h.below l
  rw [hph] at hlev
  obtain ⟨hle, hlM⟩ := hlev
  simp only [shares] at hst
  -- nodes are left only at the level that is built
  have hlast : s.buildStarted l < T.buildCount l → l = s.buildLevel := by omega
  simp only [finalizeStep, hph]
  refine { h with
    phase := h.next_phase ?_
    share := h.next hph rfl fun a x x' hsum hinv => ?_
    above := fun l' (hl : s.buildLevel < l') => (update_of_ne (by omega) _ _).trans (h.above l' hl) }
  · split
    next hlt => exact ⟨hlast hlt, hlM⟩
    next => trivial
  · cases a <;> simp only [ofPhase, shares, update_apply, apply_ite] at * <;> grind

theorem build (hph : s.phase i = .build l k) : T.FinalizeInv (T.finalizeStep s i) := by
  have hlev := h.phase i
  have hnode := h.share_le (.node l k) i
  rw [hph] at hlev hnode
  obtain ⟨rfl, hlM⟩ := hlev
  simp only [ofPhase, shares, if_true] at hnode
  have hnew : k < T.buildCount s.buildLevel ∧ s.builds (s.buildLevel, k) = 0 := by
    split_ifs at hnode <;> omega
  obtain ⟨hstates, hcurs⟩ := buildNode_spec (p := { newPart s.levelsFlatNative with cursor := s.cursor i })
    (holds_of_empty rfl rfl (h.cursor i))
    (fun l hl k hk => (h.built hl ((buildCount_eq (hl.trans hlM)).symm ▸ hk)).2) hlM (buildCount_eq hlM ▸ hnew.1)
  simp only [finalizeStep, hph]
  refine { h with
    phase := h.next_phase ⟨rfl, hlM⟩
    share := h.next hph rfl fun a x x' hsum hinv => ?_
    cursor := (forall_update_iff _ fun _ (c : WindowCursor) => c.chunkIndex ≤ T.collection.chunks.length).2
      ⟨hcurs, fun j _ => h.cursor j⟩
    nodes := fun l hl k' hk' => ?_ }
  · cases a <;> simp only [ofPhase, shares, update_apply] at * <;> grind
  · simp only [hstates, update_apply]
    by_cases hsame : (l, k') = (s.buildLevel, k)
    · obtain ⟨rfl, rfl⟩ := Prod.mk.inj hsame
      have hold := h.nodes _ hl k' hk'
      rw [hnew.2, if_pos rfl] at hold
      rw [mulAt_self, if_pos rfl, if_neg (Nat.succ_ne_zero _)]
      exact (congrArg (· * _) hold).trans (one_mul _)
    · rw [if_neg hsame, mulAt_of_ne fun heq => hsame (levelStart_add_inj hl hlM hk' hnew.1 (StatePtr.node.inj heq))]
      exact h.nodes l hl k' hk'

theorem complete (hph : s.phase i = .complete l) : T.FinalizeInv (T.finalizeStep s i) := by
  have hlev := h.phase i
  have hshare := h.share_le (.level l) i
  rw [hph] at hlev hshare
  obtain ⟨rfl, hlM⟩ := hlev
  simp only [ofPhase, shares, if_true] at hshare
  simp only [finalizeStep, hph]
  refine { h with
    phase := h.next_phase (by split <;> trivial)
    share := h.next hph rfl fun a x x' hsum hinv => ?_
    below := fun l hl => (update_of_ne hl.ne _ _).trans (h.below l hl) }
  cases a <;> simp only [ofPhase, shares, update_apply, apply_ite] at * <;> grind

theorem advance (hph : s.phase i = .advance) : T.FinalizeInv (T.finalizeStep s i) := by
  have hadv := h.share_le .advance i
  have hbusy := h.share_le (.level s.buildLevel)
  have hnext := h.share (.level (s.buildLevel + 1))
  have hst := h.above _ s.buildLevel.lt_succ_self
  have hpos := @buildCount_pos _ _ _ _ T (s.buildLevel + 1)
  rw [hph] at hadv
  simp only [ofPhase, shares] at hadv hnext hbusy
  have hfull : s.buildLevel < T.maxLevel ∧ T.buildCount s.buildLevel ≤ s.buildCompleted s.buildLevel := by
    split_ifs at hadv <;> omega
  obtain ⟨hlM, hcount⟩ := hfull
  have hle : s.buildCompleted s.buildLevel ≤ T.buildCount s.buildLevel := by
    have := hbusy i
    omega
  simp only [finalizeStep, hph]
  refine { h with
    level := hlM
    phase := (forall_update_iff _ fun _ p => T.AtLevel _ p).2 ⟨trivial, fun j _ => ?_⟩
    share := h.next hph rfl fun a x x' hsum hinv => ?_
    below := fun l hl => ?_
    above := fun l hl => h.above l (Nat.lt_of_succ_lt hl) }
  · -- the other threads have no nodes of the level that is complete
    have hlev := h.phase j
    have hz := hbusy j
    cases hp : s.phase j <;> rw [hp] at hlev hz <;> simp only [AtLevel] at * <;> grind
  · cases a <;> simp only [ofPhase, shares] at * <;> grind
  · rcases Nat.lt_succ_iff_lt_or_eq.1 hl with hl | rfl
    · exact h.below l hl
    · exact hle.antisymm hcount

theorem step (i : ι) : T.FinalizeInv (T.finalizeStep s i) := by
  cases hph : s.phase i with
  | load =>
    have hmore : s.buildLevel < T.levelsFlatStart.length ∧ 1 < T.levelSize s.buildLevel ↔
        s.buildLevel < T.maxLevel := by
      rw [levelsFlatStart_length, levelSize_eq h.level]
      refine ⟨fun hmore => lt_of_le_of_ne h.level fun heq => ?_,
        fun hlt => ⟨Nat.lt_succ_of_lt hlt, one_lt_levelBlocks hlt⟩⟩
      exact absurd (heq ▸ hmore.2) (not_lt.2 levelBlocks_maxLevel)
    simp only [finalizeStep, hph, hmore]
    refine { h with phase := h.next_phase ?_, share := h.next hph rfl fun a x x' hsum hinv => ?_ }
    · split
      next hlt => exact ⟨le_rfl, hlt⟩
      next hlt => exact h.level.antisymm (not_lt.1 hlt)
    · cases a <;> simp only [ofPhase, shares, apply_ite] at * <;> grind
  | take l => exact h.take hph
  | wait l =>
    simp only [finalizeStep, hph]
    refine { h with
      phase := h.next_phase (by split <;> trivial)
      share := h.next hph rfl fun a x x' hsum hinv => ?_ }
    cases a <;> simp only [ofPhase, shares, apply_ite] at * <;> grind
  | build l k => exact h.build hph
  | complete l => exact h.complete hph
  | advance => exact h.advance hph
  | left =>
    simp only [finalizeStep, hph]
    exact h

theorem steps (steps : List ι) : T.FinalizeInv (steps.foldl T.finalizeStep s) := by
  induction steps generalizing s with
  | nil => exact h
  | cons i steps ih => exact ih (h.step i)

end FinalizeInv

/-- When a thread leaves, the tree is complete: whoever evaluates frames on it gets the aggregates of their rows. -/
theorem finalizeSteps_evaluate [DecidableEq ι] (steps : List ι) (hi : (T.finalizeSteps steps).phase i = .left)
    (chunks : List (BoundsChunk T.collection.count)) :
    T.evaluateChunks (T.finalizeSteps steps).levelsFlatNative ⟨none, none⟩ chunks =
      chunks.map fun chunk => (List.range chunk.bounds.length).map fun r =>
        T.naive (chunk.bounds.getD r default) (chunk.rowIdx + r) := by
  have h : T.FinalizeInv (T.finalizeSteps steps) := FinalizeInv.init.steps steps
  generalize T.finalizeSteps steps = s at h hi ⊢
  have hlev := h.phase i
  rw [hi] at hlev
  have hready : T.Ready (newPart s.levelsFlatNative) (newPart s.levelsFlatNative).states :=
    ⟨rfl, rfl, Nat.zero_le _, rfl,
      fun l hl k hk => (h.built (hl.trans_eq hlev.symm) ((buildCount_eq hl).symm ▸ hk)).2, rfl⟩
  have hlocal : T.LocalReady ⟨none, none⟩ s.levelsFlatNative := ⟨⟨_, hready⟩, ⟨_, hready⟩⟩
  generalize SegmentTreeLocal.mk none none = lstate at hlocal ⊢
  induction chunks generalizing lstate with
  | nil => rfl
  | cons chunk chunks ih =>
    obtain ⟨hres, hlocal'⟩ := evaluate_naive hlocal chunk
    rw [evaluateChunks, List.map_cons, hres, ih _ hlocal']

theorem product_pos : ∀ n ∈ [2], 1 ≤ n := by decide

/-- The product of two rows -/
def product : WindowSegmentTree ℕ ℕ ℕ := ⟨⟨id, id, true, fun _ => mul_comm⟩, ⟨[2], product_pos⟩, id, none, .noOther⟩

theorem finalizeSteps_evaluate_two : ∃ steps : List Bool, steps.length = 9 ∧
    ∀ chunks, product.evaluateChunks (product.finalizeSteps steps).levelsFlatNative ⟨none, none⟩ chunks =
      chunks.map fun chunk => (List.range chunk.bounds.length).map fun r =>
        product.naive (chunk.bounds.getD r default) (chunk.rowIdx + r) := by
  refine ⟨[false, true, false, true, false, false, false, true, true], rfl, finalizeSteps_evaluate _ (i := true) ?_⟩
  simp [finalizeSteps, finalizeStep, FinalizeState.init, buildCount, levelSize, levelsFlatStart, levelsFlatStartFrom,
    treeFanout, ChunkedRows.count, product]

end WindowSegmentTree

end WfOpt

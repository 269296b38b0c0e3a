import WfOpt.Lib.RangeProd
import WfOpt.Window.SegmentTree

/-!
# What the nodes of the segment tree are

What a part holds is what its states are once the queue is flushed
(`WindowSegmentTree.Holds`). In these terms, `WindowSegmentValue` multiplies its target by the
product over a range of rows, or of nodes (`Holds.windowSegmentValue`), and so, every
node of the tree gets the product of its block of rows (`WindowSegmentTree.finalize_built`).
-/

namespace WfOpt

open List

/-! ## States that are multiplied -/

section MulAt

variable {σ : Type*} [Monoid σ] {states : StatePtr → σ} {target : StatePtr} {x y : σ}

theorem mulAt_self : mulAt states target x target = states target * x := if_pos rfl

theorem mulAt_of_ne {ptr : StatePtr} (h : ptr ≠ target) : mulAt states target x ptr = states ptr := if_neg h

@[simp] theorem mulAt_one : mulAt states target 1 = states := by
  funext ptr
  rw [mulAt]
  split_ifs
  · exact mul_one _
  · rfl

theorem mulAt_mulAt : mulAt (mulAt states target x) target y = mulAt states target (x * y) := by
  funext ptr
  simp only [mulAt]
  split_ifs
  · exact mul_assoc ..
  · rfl

end MulAt

/-! ## The cursor -/

namespace WindowCursor

variable {rows : ChunkedRows} {row : ℕ} {c : WindowCursor}

theorem rowIsVisible_iff : c.rowIsVisible rows row = true ↔
      row < rows.position c.chunkIndex ∧ rows.position (c.chunkIndex - 1) ≤ row := by
  rw [rowIsVisible, Bool.and_eq_true, decide_eq_true_iff, decide_eq_true_iff, nextRowIndex, currentRowIndex]

theorem position_seekBack (k : ℕ) : rows.position (seekBack rows row k - 1) ≤ row := by
  induction k with
  | zero => exact Nat.zero_le row
  | succ k ih =>
    rw [seekBack]
    split_ifs with hlt
    · exact ih
    · exact Nat.not_lt.1 hlt

theorem seekForward_spec {k : ℕ} (hrow : row < rows.count) (hk : rows.position (k - 1) ≤ row)
    (hle : k ≤ rows.chunks.length) :
    row < rows.position (seekForward rows row k) ∧ rows.position (seekForward rows row k - 1) ≤ row := by
  fun_induction seekForward rows row k with
  | case1 k h ih => exact ih h.2 h.1
  | case2 k h =>
    refine ⟨?_, hk⟩
    by_contra hge
    -- Otherwise, there are no more chunks.
    rcases Nat.lt_or_ge k rows.chunks.length with hlt | hlen
    · exact h ⟨hlt, Nat.not_lt.1 hge⟩
    · rw [hle.antisymm hlen, ChunkedRows.position_length] at hge
      exact hge hrow

theorem seekBack_le (k : ℕ) : seekBack rows row k ≤ k := by
  induction k with
  | zero => exact le_rfl
  | succ k ih =>
    rw [seekBack]
    split_ifs
    · exact ih.trans (Nat.le_succ k)
    · exact le_rfl

theorem seekForward_le {k : ℕ} (hle : k ≤ rows.chunks.length) : seekForward rows row k ≤ rows.chunks.length := by
  fun_induction seekForward rows row k with
  | case1 k h ih => exact ih h.1
  | case2 k h => exact hle

theorem rowIsVisible_seek (hrow : row < rows.count) (hc : c.chunkIndex ≤ rows.chunks.length) :
    (c.seek rows row).rowIsVisible rows row = true := by
  rw [seek]
  split_ifs with hvis
  · exact hvis
  · rw [rowIsVisible_iff]
    exact seekForward_spec hrow (position_seekBack _) ((seekBack_le _).trans hc)

theorem seek_le (hc : c.chunkIndex ≤ rows.chunks.length) : (c.seek rows row).chunkIndex ≤ rows.chunks.length := by
  rw [seek]
  split_ifs
  · exact hc
  · exact seekForward_le ((seekBack_le _).trans hc)

end WindowCursor

/-! ## Levels -/

/-- The number of nodes of a level of a tree with `n` leaves. -/
def levelBlocks : ℕ → ℕ → ℕ
  | n, 0 => n
  | n, l + 1 => levelBlocks ((n + treeFanout - 1) / treeFanout) l

theorem levelBlocks_succ {n l : ℕ} : levelBlocks n (l + 1) = (levelBlocks n l + treeFanout - 1) / treeFanout := by
  induction l generalizing n with
  | zero => rfl
  | succ l ih => exact ih

theorem levelBlocks_le_mul {n l : ℕ} : levelBlocks n l ≤ levelBlocks n (l + 1) * treeFanout := by
  rw [levelBlocks_succ, treeFanout]
  omega

/-- The nodes of a level have all rows. -/
theorem le_levelBlocks_mul {n l : ℕ} : n ≤ levelBlocks n l * treeFanout ^ l := by
  induction l with
  | zero => exact (Nat.mul_one n).ge
  | succ l ih =>
    calc
      n ≤ levelBlocks n l * treeFanout ^ l := ih
      _ ≤ levelBlocks n (l + 1) * treeFanout * treeFanout ^ l := Nat.mul_le_mul_right _ levelBlocks_le_mul
      _ = levelBlocks n (l + 1) * treeFanout ^ (l + 1) := by rw [Nat.mul_assoc, ← Nat.pow_succ']

theorem levelsFlatStartFrom_spec (n offset : ℕ) : 0 < (levelsFlatStartFrom n offset).length ∧
    (levelsFlatStartFrom n offset).getD 0 0 = offset ∧
    levelBlocks n ((levelsFlatStartFrom n offset).length - 1) ≤ 1 ∧
    ∀ l, l + 1 < (levelsFlatStartFrom n offset).length → 1 < levelBlocks n l ∧
      (levelsFlatStartFrom n offset).getD (l + 1) 0 =
        (levelsFlatStartFrom n offset).getD l 0 + levelBlocks n (l + 1) := by
  fun_induction levelsFlatStartFrom n offset with
  | case1 n offset hn ih =>
    obtain ⟨hpos, hz, hlst, hsucc⟩ := ih
    refine ⟨Nat.succ_pos _, rfl, ?_, fun l hl => ?_⟩
    · obtain ⟨k, hk⟩ := Nat.exists_eq_add_of_lt hpos
      rw [length_cons, hk]
      rw [hk, Nat.zero_add, Nat.add_sub_cancel] at hlst
      rw [Nat.zero_add, Nat.add_sub_cancel]
      exact hlst
    · cases l with
      | zero => exact ⟨hn, by rw [getD_cons_succ, hz]; rfl⟩
      | succ l =>
        exact hsucc l (Nat.lt_of_succ_lt_succ hl)
  | case2 n offset hn =>
    refine ⟨Nat.one_pos, rfl, Nat.not_lt.1 hn, fun l hl => ?_⟩
    exact absurd hl (by simp)

/-! ## Queues -/

namespace WindowSegmentTree

variable {ρ σ τ : Type*} [Monoid σ] {T : WindowSegmentTree ρ σ τ} {p : SegmentTreePart σ}
  {s : StatePtr → σ} {t : StatePtr} {b e : ℕ}

variable (T)

/-- The filter lets a row pass. -/
def passes (i : ℕ) : Bool := match T.filterMask with
  | none => true
  | some mask => mask i

/-- What a row contributes to the aggregate. -/
def value (i : ℕ) : σ := if i < T.collection.count ∧ T.passes i = true then T.aggr.rowState (T.row i) else 1

/-- The states of a part, with what is queued: either rows, or nodes. -/
structure Holds (combining : Bool) (p : SegmentTreePart σ) (s : StatePtr → σ) : Prop where
  queue : if combining then p.leaves = [] else p.nodes = []
  states : (T.flushStates p combining).states = s
  cursor : p.cursor.chunkIndex ≤ T.collection.chunks.length

variable {T}

theorem flushStates_eq (combining : Bool) : T.flushStates p combining = { p with
        states := if combining then p.nodes.foldl (fun states e => mulAt states e.1 (states e.2)) p.states
          else
            p.leaves.foldl (fun states e => mulAt states e.1
              (T.aggr.rowState (T.row (p.cursor.currentRowIndex T.collection + e.2)))) p.states
        leaves := []
        nodes := [] } := by
  rw [flushStates]
  split_ifs with hz hc hc
  iterate 2
    · obtain ⟨hlvs, hnds⟩ := Nat.add_eq_zero_iff.1 hz
      obtain ⟨states, cursor, leaves, nodes, stack⟩ := p
      simp_all
  · rfl
  · rfl

variable {c : Bool}

@[simp] theorem cursor_flushStates : (T.flushStates p c).cursor = p.cursor := by
  rw [flushStates_eq]

@[simp] theorem rightStack_flushStates : (T.flushStates p c).rightStack = p.rightStack := by
  rw [flushStates_eq]

@[simp] theorem leaves_flushStates : (T.flushStates p c).leaves = [] := by
  rw [flushStates_eq]

@[simp] theorem nodes_flushStates : (T.flushStates p c).nodes = [] := by
  rw [flushStates_eq]

/-- Nothing is queued, so that it does not matter what could be. -/
theorem holds_of_empty (hlvs : p.leaves = []) (hnds : p.nodes = [])
    (hcurs : p.cursor.chunkIndex ≤ T.collection.chunks.length) : T.Holds c p p.states := by
  refine ⟨?_, ?_, hcurs⟩
  · split_ifs
    · exact hlvs
    · exact hnds
  · rw [flushStates_eq, hlvs, hnds]
    split_ifs <;> rfl

theorem Holds.flush (h : T.Holds c p s) (c' : Bool) : T.Holds c' (T.flushStates p c) s := by
  have := holds_of_empty (T := T) (p := T.flushStates p c) (c := c') leaves_flushStates
    nodes_flushStates (by rw [cursor_flushStates]; exact h.cursor)
  rwa [h.states] at this

theorem Holds.flushFull (h : T.Holds c p s) : T.Holds c (T.flushFull p c) s := by
  rw [WindowSegmentTree.flushFull]
  split_ifs
  · exact h.flush c
  · exact h

@[simp] theorem cursor_flushFull : (T.flushFull p c).cursor = p.cursor := by
  rw [flushFull]
  split_ifs
  · exact cursor_flushStates
  · rfl

@[simp] theorem rightStack_flushFull : (T.flushFull p c).rightStack = p.rightStack := by
  rw [flushFull]
  split_ifs
  · exact rightStack_flushStates
  · rfl

theorem Holds.pushLeaf (h : T.Holds false p s) (offset : ℕ) : T.Holds false (T.pushLeaf p t offset) (mulAt s t
      (T.aggr.rowState (T.row (p.cursor.currentRowIndex T.collection + offset)))) := by
  refine Holds.flushFull ⟨h.queue, ?_, h.cursor⟩
  rw [flushStates_eq, ← h.states, flushStates_eq]
  exact foldl_append

theorem Holds.pushNode (h : T.Holds true p s) (source : StatePtr) :
    T.Holds true (T.pushNode p t source) (mulAt s t (s source)) := by
  refine Holds.flushFull ⟨h.queue, ?_, h.cursor⟩
  rw [flushStates_eq, ← h.states, flushStates_eq]
  exact foldl_append

@[simp] theorem cursor_pushLeaf {offset : ℕ} : (T.pushLeaf p t offset).cursor = p.cursor := cursor_flushFull

@[simp] theorem rightStack_pushLeaf {offset : ℕ} : (T.pushLeaf p t offset).rightStack = p.rightStack :=
  rightStack_flushFull

@[simp] theorem rightStack_pushNode {source : StatePtr} : (T.pushNode p t source).rightStack = p.rightStack :=
  rightStack_flushFull

/-! ## Rows -/

/-- A row that can be read is queued, if it passes the filter. -/
theorem Holds.pushRow (h : T.Holds false p s) {i : ℕ} (hi : i < T.collection.count)
    (hcurr : p.cursor.currentRowIndex T.collection ≤ i) (hpass : T.passes i = true) :
    T.Holds false (T.pushLeaf p t (p.cursor.rowOffset T.collection i))
      (mulAt s t (T.value i)) := by
  have hoff : p.cursor.currentRowIndex T.collection + p.cursor.rowOffset T.collection i = i := by
    rw [WindowCursor.rowOffset, Nat.add_sub_cancel' hcurr]
  rw [value, if_pos ⟨hi, hpass⟩]
  have hpush := h.pushLeaf (t := t) (p.cursor.rowOffset T.collection i)
  rwa [hoff] at hpush

theorem Holds.extractFrame (h : T.Holds false p s) (hbe : b ≤ e) (he : e ≤ T.collection.count)
    (hcurr : p.cursor.currentRowIndex T.collection ≤ b) :
    T.Holds false (T.extractFrame p b e t) (mulAt s t (rangeProd T.value b e)) ∧
      (T.extractFrame p b e t).cursor = p.cursor := by
  obtain ⟨k, rfl⟩ := Nat.exists_eq_add_of_le hbe
  rw [WindowSegmentTree.extractFrame, Nat.add_sub_cancel_left]
  cases hmask : T.filterMask with
  | none =>
    induction k with
    | zero => exact ⟨by simpa using h, rfl⟩
    | succ k ih =>
      obtain ⟨ihholds, ihcursor⟩ := ih (Nat.le_add_right b k) (by omega)
      rw [range_succ, foldl_append, foldl_cons, foldl_nil]
      refine ⟨?_, cursor_pushLeaf.trans ihcursor⟩
      have hoff : p.cursor.rowOffset T.collection b + k = p.cursor.rowOffset T.collection (b + k) := by
        rw [WindowCursor.rowOffset, WindowCursor.rowOffset]
        omega
      have := ihholds.pushRow (t := t) (i := b + k) (by omega)
        (by rw [ihcursor]; omega) (by rw [passes, hmask])
      rw [ihcursor] at this
      rw [hoff, ← Nat.add_assoc, rangeProd_succ (Nat.le_add_right b k), ← mulAt_mulAt]
      exact this
  | some mask =>
    dsimp only
    induction k with
    | zero => exact ⟨by simpa using h, rfl⟩
    | succ k ih =>
      obtain ⟨ihholds, ihcursor⟩ := ih (Nat.le_add_right b k) (by omega)
      rw [range'_1_concat, foldl_append, foldl_cons, foldl_nil]
      have hpass : T.passes (b + k) = mask (b + k) := by rw [passes, hmask]
      rw [← Nat.add_assoc, rangeProd_succ (Nat.le_add_right b k), ← mulAt_mulAt]
      split_ifs with hk
      · refine ⟨?_, cursor_pushLeaf.trans ihcursor⟩
        exact ihholds.pushRow (by omega) (by rw [ihcursor]; omega) (hpass.trans hk)
      · -- The row does not contribute.
        refine ⟨?_, ihcursor⟩
        rwa [value, if_neg (fun hv => hk (hpass.symm.trans hv.2)), mulAt_one]

@[simp] theorem rightStack_extractFrame : (T.extractFrame p b e t).rightStack = p.rightStack := by
  rw [extractFrame]
  split
  · induction (e - b) with
    | zero => rfl
    | succ k ih =>
      rw [range_succ, foldl_append, foldl_cons, foldl_nil, rightStack_pushLeaf]
      exact ih
  · induction (e - b) with
    | zero => rfl
    | succ k ih =>
      rw [range'_1_concat, foldl_append, foldl_cons, foldl_nil]
      split_ifs
      · rw [rightStack_pushLeaf]
        exact ih
      · exact ih

theorem Holds.seekRow (h : T.Holds false p s) {i : ℕ} (hi : i < T.collection.count) :
    T.Holds false (T.seekRow p i) s ∧ (T.seekRow p i).cursor.rowIsVisible T.collection i = true := by
  rw [WindowSegmentTree.seekRow]
  split_ifs with hvis
  · exact ⟨h, hvis⟩
  · refine ⟨?_, WindowCursor.rowIsVisible_seek hi h.cursor⟩
    rw [← h.states]
    exact holds_of_empty leaves_flushStates nodes_flushStates (WindowCursor.seek_le h.cursor)

theorem Holds.leafLoop (fuel : ℕ) (h : T.Holds false p s) (hbe : b ≤ e)
    (he : e ≤ T.collection.count) (hfuel : e - b ≤ fuel) :
    T.Holds false (T.leafLoop t e fuel b p) (mulAt s t (rangeProd T.value b e)) := by
  induction fuel generalizing p s b with
  | zero =>
    obtain rfl : b = e := by omega
    rw [WindowSegmentTree.leafLoop, rangeProd_self, mulAt_one]
    exact h
  | succ fuel ih =>
    rw [WindowSegmentTree.leafLoop]
    split_ifs with hlt
    · obtain ⟨hhld, hvis⟩ := h.seekRow (hlt.trans_le he)
      rw [WindowCursor.rowIsVisible_iff] at hvis
      have hnx : b < min e ((T.seekRow p b).cursor.nextRowIndex T.collection) := lt_min hlt hvis.1
      have hextract := (hhld.extractFrame (t := t) hnx.le ((min_le_left ..).trans he) hvis.2).1
      have hless : e - min e ((T.seekRow p b).cursor.nextRowIndex T.collection) ≤ fuel := by omega
      have hrst := ih hextract (min_le_left ..) hless
      rwa [mulAt_mulAt, rangeProd_mul_rangeProd hnx.le (min_le_left ..)] at hrst
    · obtain rfl : b = e := by omega
      rw [rangeProd_self, mulAt_one]
      exact h

@[simp] theorem rightStack_seekRow {i : ℕ} : (T.seekRow p i).rightStack = p.rightStack := by
  rw [seekRow]
  split_ifs
  · rfl
  · exact rightStack_flushStates

@[simp] theorem rightStack_leafLoop {fuel : ℕ} : (T.leafLoop t e fuel b p).rightStack = p.rightStack := by
  induction fuel generalizing p b with
  | zero => rfl
  | succ fuel ih =>
    rw [leafLoop]
    split_ifs
    · rw [ih, rightStack_extractFrame, rightStack_seekRow]
    · rfl

/-! ## Nodes -/

variable {l : ℕ}

variable (T) in
/-- The number of the highest level. -/
def maxLevel : ℕ := T.levelsFlatStart.length - 1

variable (T) in
/-- Where the nodes of a level start: those of level `l + 1` are at `levelStart l`. -/
def levelStart (l : ℕ) : ℕ := T.levelsFlatStart.getD l 0

theorem levelsFlatStart_length : T.levelsFlatStart.length = T.maxLevel + 1 :=
  (Nat.sub_add_cancel (levelsFlatStartFrom_spec _ _).1).symm

theorem levelStart_succ (hl : l < T.maxLevel) :
    T.levelStart (l + 1) = T.levelStart l + levelBlocks T.collection.count (l + 1) :=
  ((levelsFlatStartFrom_spec _ _).2.2.2 l (by
    change l + 1 < T.levelsFlatStart.length
    rw [levelsFlatStart_length]
    omega)).2

theorem one_lt_levelBlocks (hl : l < T.maxLevel) : 1 < levelBlocks T.collection.count l :=
  ((levelsFlatStartFrom_spec _ _).2.2.2 l (by
    change l + 1 < T.levelsFlatStart.length
    rw [levelsFlatStart_length]
    omega)).1

theorem levelBlocks_maxLevel : levelBlocks T.collection.count T.maxLevel ≤ 1 := (levelsFlatStartFrom_spec _ _).2.2.1

theorem levelSize_eq (hl : l ≤ T.maxLevel) : T.levelSize l = levelBlocks T.collection.count l := by
  cases l with
  | zero => rfl
  | succ l =>
    have := levelStart_succ (T := T) (l := l) hl
    rw [levelSize, if_neg (Nat.succ_ne_zero l), Nat.add_sub_cancel]
    rw [levelStart, levelStart] at this
    rw [this, Nat.add_sub_cancel_left]

theorem levelStart_mono {k : ℕ} (hkl : k ≤ l) (hl : l ≤ T.maxLevel) : T.levelStart k ≤ T.levelStart l := by
  induction l, hkl using Nat.le_induction with
  | base => exact le_rfl
  | succ l hkl ih =>
    rw [levelStart_succ hl]
    exact (ih (Nat.le_of_succ_le hl)).trans (Nat.le_add_right _ _)

variable (T) in
/-- The nodes of the levels up to `k` have the products of their rows. -/
def BuiltUpTo (s : StatePtr → σ) (k : ℕ) : Prop := ∀ l < k, ∀ i < levelBlocks T.collection.count (l + 1),
    s (.node (T.levelStart l + i)) = levelProd T.value treeFanout (l + 1) i

/-- There is nothing behind the last node of a level. -/
theorem levelProd_eq_one {i : ℕ} (hi : levelBlocks T.collection.count l ≤ i) :
    levelProd T.value treeFanout l i = 1 := by
  refine rangeProd_eq_one fun j hj _ => if_neg fun hval => ?_
  have := calc
    T.collection.count ≤ levelBlocks T.collection.count l * treeFanout ^ l := le_levelBlocks_mul
    _ ≤ i * treeFanout ^ l := Nat.mul_le_mul_right _ hi
  omega

theorem Holds.windowSegmentValue (h : T.Holds (decide (0 < l)) p s) (hbt : T.BuiltUpTo s l)
    (hl : l ≤ T.maxLevel) (hbe : b ≤ e) (he : e ≤ levelBlocks T.collection.count l)
    (ht : ∀ i < T.levelStart l, t ≠ .node i) :
    T.Holds (decide (0 < l)) (T.windowSegmentValue p l b e t)
      (mulAt s t (rangeProd (levelProd T.value treeFanout l) b e)) := by
  rw [WindowSegmentTree.windowSegmentValue]
  split_ifs with hb hz
  · rw [hb, rangeProd_self, mulAt_one]
    exact h
  · subst hz
    rw [levelProd_zero]
    exact Holds.leafLoop _ h hbe he le_rfl
  · obtain ⟨l, rfl⟩ : ∃ k, l = k + 1 := Nat.exists_eq_succ_of_ne_zero hz
    obtain ⟨k, rfl⟩ := Nat.exists_eq_add_of_le hbe
    rw [Nat.add_sub_cancel_left, Nat.add_sub_cancel]
    clear hb
    induction k with
    | zero => simpa using h
    | succ k ih =>
      have hk : b + k < levelBlocks T.collection.count (l + 1) := by omega
      have hne : StatePtr.node (b + T.levelsFlatStart.getD l 0 + k) ≠ t := by
        refine (ht _ ?_).symm
        rw [levelStart_succ hl, levelStart]
        omega
      rw [range_succ, foldl_append, foldl_cons, foldl_nil, ← Nat.add_assoc,
        rangeProd_succ (Nat.le_add_right b k), ← mulAt_mulAt]
      have hpush := (ih (Nat.le_add_right b k) (by omega)).pushNode (t := t)
        (.node (b + T.levelsFlatStart.getD l 0 + k))
      rw [mulAt_of_ne hne] at hpush
      have hnode := hbt l (Nat.lt_succ_self l) (b + k) hk
      rw [levelStart, show T.levelsFlatStart.getD l 0 + (b + k) =
        b + T.levelsFlatStart.getD l 0 + k by omega] at hnode
      rwa [hnode] at hpush

@[simp] theorem rightStack_windowSegmentValue : (T.windowSegmentValue p l b e t).rightStack = p.rightStack := by
  rw [windowSegmentValue]
  split_ifs
  · rfl
  · exact rightStack_leafLoop
  · induction (e - b) with
    | zero => rfl
    | succ k ih =>
      rw [range_succ, foldl_append, foldl_cons, foldl_nil, rightStack_pushNode]
      exact ih

/-! ## Building -/

variable (T) in
/-- The tree has been built up to level `l`, and the first `j` nodes of the next one have been
    built, too. -/
structure Building (l j : ℕ) (p : SegmentTreePart σ) (s : StatePtr → σ) : Prop where
  leaves : p.leaves = []
  nodes : p.nodes = []
  cursor : p.cursor.chunkIndex ≤ T.collection.chunks.length
  states : p.states = s
  built : T.BuiltUpTo s l
  next : ∀ i < j, s (.node (T.levelStart l + i)) = levelProd T.value treeFanout (l + 1) i
  rest : ∀ i, T.levelStart l + j ≤ i → s (.node i) = 1

/-- A node of the next level gets the product of its rows. -/
theorem buildNode_spec {j : ℕ} (hhld : T.Holds (decide (0 < l)) p s) (hbt : T.BuiltUpTo s l) (hl : l < T.maxLevel)
    (hj : j < levelBlocks T.collection.count (l + 1)) :
    (T.buildNode p l j).states =
        mulAt s (.node (T.levelStart l + j)) (levelProd T.value treeFanout (l + 1) j) ∧
      (T.buildNode p l j).cursor.chunkIndex ≤ T.collection.chunks.length := by
  obtain ⟨x, hx⟩ : ∃ x, x = rangeProd (levelProd T.value treeFanout l) (j * treeFanout)
      (min (T.levelSize l) (j * treeFanout + treeFanout)) := ⟨_, rfl⟩
  have hsz := levelSize_eq hl.le
  have hlst : j * treeFanout ≤ min (T.levelSize l) (j * treeFanout + treeFanout) := by
    rw [levelBlocks_succ] at hj
    simp only [treeFanout] at hj ⊢
    omega
  -- What is behind the last node of the level does not matter.
  have hval : x = levelProd T.value treeFanout (l + 1) j := by
    rw [levelProd_succ, hx, ← rangeProd_mul_rangeProd hlst (e := (j + 1) * treeFanout)
      (by rw [Nat.succ_mul]; exact min_le_right ..)]
    refine (mul_one _).symm.trans (congrArg _ (Eq.symm ?_))
    refine rangeProd_eq_one fun i hi hi' => levelProd_eq_one ?_
    rw [Nat.succ_mul] at hi'
    omega
  have hseg := hhld.windowSegmentValue (t := .node (T.levelStart l + j)) hbt hl.le hlst
    (by rw [hsz]; exact min_le_left ..) (fun i hi heq => by
      rw [StatePtr.node.injEq] at heq
      omega)
  rw [← hx, hval] at hseg
  exact ⟨hseg.states, (hseg.flush true).cursor⟩

theorem Building.buildNode {j : ℕ} (h : T.Building l j p s) (hl : l < T.maxLevel)
    (hj : j < levelBlocks T.collection.count (l + 1)) :
    ∃ s', T.Building l (j + 1) (T.buildNode p l j) s' := by
  obtain ⟨hstates, hcurs⟩ := buildNode_spec (h.states ▸ holds_of_empty h.leaves h.nodes h.cursor) h.built hl hj
  have hoth : ∀ i, i ≠ T.levelStart l + j →
      mulAt s (.node (T.levelStart l + j)) (levelProd T.value treeFanout (l + 1) j) (.node i) =
        s (.node i) := fun i hi => mulAt_of_ne fun heq => hi (StatePtr.node.inj heq)
  refine ⟨mulAt s (.node (T.levelStart l + j)) (levelProd T.value treeFanout (l + 1) j),
    leaves_flushStates, nodes_flushStates, hcurs, hstates, ?_, ?_, ?_⟩
  · intro k hk i hi
    have hle := levelStart_mono (Nat.succ_le_of_lt hk) hl.le
    rw [levelStart_succ (hk.trans hl)] at hle
    rw [hoth _ (by omega)]
    exact h.built k hk i hi
  · intro i hi
    rcases Nat.lt_succ_iff_lt_or_eq.1 hi with hi | rfl
    · rw [hoth _ (by omega)]
      exact h.next i hi
    · rw [mulAt_self, h.rest _ le_rfl, one_mul]
  · intro i hi
    rw [hoth _ (by omega)]
    exact h.rest i (by omega)

theorem Building.level (h : T.Building l 0 p s) (hl : l < T.maxLevel) :
    ∀ j ≤ levelBlocks T.collection.count (l + 1), ∃ s', T.Building l j
      ((range j).foldl (fun p buildIdx => T.buildNode p l buildIdx) p) s' := by
  intro j
  induction j with
  | zero => exact fun _ => ⟨s, h⟩
  | succ j ih =>
    intro hj
    obtain ⟨s', hs'⟩ := ih (Nat.le_of_succ_le hj)
    rw [range_succ, foldl_append]
    exact hs'.buildNode hl hj

theorem Building.next_level (h : T.Building l (levelBlocks T.collection.count (l + 1)) p s)
    (hl : l < T.maxLevel) : T.Building (l + 1) 0 p s where
  leaves := h.leaves
  nodes := h.nodes
  cursor := h.cursor
  states := h.states
  built k hk i hi := by
    rcases Nat.lt_succ_iff_lt_or_eq.1 hk with hk | rfl
    · exact h.built k hk i hi
    · exact h.next i hi
  next _ hi := absurd hi (Nat.not_lt_zero _)
  rest i hi := h.rest i (by rwa [levelStart_succ hl] at hi)

theorem Building.finalizeLoop (h : T.Building l 0 p s) (hl : l ≤ T.maxLevel) :
    T.BuiltUpTo (T.finalizeLoop l p).states T.maxLevel := by
  induction hn : T.maxLevel - l generalizing l p s with
  | zero =>
    obtain rfl : l = T.maxLevel := by omega
    have hlst : ¬1 < T.levelSize T.maxLevel := by
      rw [levelSize_eq le_rfl]
      exact Nat.not_lt.2 levelBlocks_maxLevel
    rw [WindowSegmentTree.finalizeLoop, if_neg fun hlev => hlst hlev.2, h.states]
    exact h.built
  | succ n ih =>
    have hlt : l < T.maxLevel := by omega
    have hmore : l < T.levelsFlatStart.length ∧ 1 < T.levelSize l := by
      rw [levelsFlatStart_length, levelSize_eq hlt.le]
      exact ⟨hlt.trans (Nat.lt_succ_self _), one_lt_levelBlocks hlt⟩
    rw [WindowSegmentTree.finalizeLoop, if_pos hmore, levelSize_eq hlt.le, ← levelBlocks_succ]
    obtain ⟨s', hs'⟩ := h.level hlt _ le_rfl
    exact ih (hs'.next_level hlt) hlt (by omega)

/-- The nodes of all levels have the products of their rows. -/
theorem finalize_built :
    T.BuiltUpTo (fun ptr => match ptr with | .node i => T.finalize i | .frame _ => 1) T.maxLevel := by
  have hst : T.Building 0 0 (newPart fun _ => 1) (newPart fun _ => (1 : σ)).states :=
    ⟨rfl, rfl, Nat.zero_le _, rfl, fun _ hl => absurd hl (Nat.not_lt_zero _),
      fun _ hi => absurd hi (Nat.not_lt_zero _), fun _ _ => rfl⟩
  exact hst.finalizeLoop (Nat.zero_le _)

end WindowSegmentTree

end WfOpt

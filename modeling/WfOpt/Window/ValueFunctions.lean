import WfOpt.Window.SegmentTree
import WfOpt.Window.ValueTree

/-!
# First, last and n-th value

With an order of its own for its argument, `first_value`, `last_value` or `nth_value` selects a row of the frame
from the value tree (`evaluateSubFrames`). Under `IGNORE NULLS`, only rows with a value should count, but which row
is asked for is told by the width of the parts of the frame, where all rows count. `ValueTree.evaluate_iff` says
when the right value is returned nevertheless.
-/

namespace WfOpt

open List Option

/-! ## Model -/

/-- `EvaluateSubFrames`: the parts of the frame of a row. -/
def evaluateSubFrames (mode : WindowExcludeMode) (b : WindowBounds) (curRow : ℕ) : List FrameBounds :=
  if mode = .noOther then [⟨b.frameBegin, b.frameEnd⟩]
  else
    let left : FrameBounds :=
      ⟨b.frameBegin, max (min (if mode = .currentRow then curRow else b.peerBegin) b.frameEnd) b.frameBegin⟩
    let current : FrameBounds :=
      ⟨min (max curRow b.frameBegin) b.frameEnd, max (min (curRow + 1) b.frameEnd) b.frameBegin⟩
    let right : FrameBounds :=
      ⟨min (max (if mode = .currentRow then curRow + 1 else b.peerEnd) b.frameBegin) b.frameEnd, b.frameEnd⟩
    if mode = .ties then [left, current, right] else [left, right]

/-- `frame_width` -/
def frameWidth (frames : List FrameBounds) : ℕ :=
  frames.foldl (fun width frame => idxAdd width (idxSub frame.stop frame.start)) 0

/-- The value functions, with `n` for `nth_value`. -/
inductive ValueFunction
  | firstValue
  | lastValue
  | nthValue (n : Option (BitVec 64))

namespace ValueTree

variable {V K : Type*} (T : ValueTree V K)

/-- `WindowFirstValueExecutor`, for a row. -/
def firstValue (tree : MergeSortTree ℕ) (frames : List FrameBounds) : Option (Option V) :=
  if frameWidth frames ≠ 0 then
    (indexSelectNth tree frames 0).bind fun firstIdx => T.copyCell firstIdx.1
  else some none

/-- `WindowLastValueExecutor`, for a row. -/
def lastValue (tree : MergeSortTree ℕ) (frames : List FrameBounds) : Option (Option V) :=
  if frameWidth frames ≠ 0 then
    let n := frameWidth frames - 1
    (indexSelectNth tree frames n).bind fun lastIdx =>
      -- The frame has more rows than the tree has of it, so it backs off by the overflow.
      (if lastIdx.2 ≠ 0 ∧ lastIdx.2 ≤ n then indexSelectNth tree frames (n - lastIdx.2) else some lastIdx).bind
        fun lastIdx => if lastIdx.2 ≠ 0 then some none else T.copyCell lastIdx.1
  else some none

/-- `WindowNthValueExecutor`, for a row. -/
def nthValue (nthCol : Option (BitVec 64)) (tree : MergeSortTree ℕ) (frames : List FrameBounds) :
    Option (Option V) :=
  match nthCol with
  | none => some none
  | some nParam =>
    if nParam.toInt < 1 then some none
    else if nParam.toNat < frameWidth frames then
      (indexSelectNth tree frames (nParam.toNat - 1)).bind fun nthIndex =>
        if nthIndex.2 ≠ 0 then some none else T.copyCell nthIndex.1
    else some none

/-- The value function is evaluated for a row, with the tree over the sorted rows. -/
def evaluate (f : ValueFunction) (rows : List ℕ) (mode : WindowExcludeMode) (b : WindowBounds) (curRow : ℕ) :
    Option (Option V) :=
  match f with
  | .firstValue => T.firstValue (.build rows) (evaluateSubFrames mode b curRow)
  | .lastValue => T.lastValue (.build rows) (evaluateSubFrames mode b curRow)
  | .nthValue n => T.nthValue n (.build rows) (evaluateSubFrames mode b curRow)

end ValueTree

/-! ## The rows of a frame -/

/-- A row is excluded from the frame of a row. -/
def WindowExcludeMode.excludes (mode : WindowExcludeMode) (b : WindowBounds) (curRow i : ℕ) : Bool := match mode with
  | .noOther => false
  | .currentRow => i = curRow
  | .group => b.peerBegin ≤ i && i < b.peerEnd
  | .ties => b.peerBegin ≤ i && i < b.peerEnd && i ≠ curRow

/-- A row is in the frame of a row, and is not excluded. -/
def inFrame (mode : WindowExcludeMode) (b : WindowBounds) (curRow i : ℕ) : Bool :=
  b.frameBegin ≤ i && i < b.frameEnd && !mode.excludes b curRow i

namespace ValueTree

variable {V K : Type*} [LinearOrder K] (T : ValueTree V K)

/-- The row that has `n` of the rows with `p` before it in the order of the argument. -/
def nthRow (p : ℕ → Bool) (n : ℕ) : Option ℕ := (range T.count).find? fun row =>
    p row && (range T.count).countP (fun i => p i && decide (T.argKey i < T.argKey row)) == n

/-- The row that has none of the rows with `p` behind it. -/
def lastRow (p : ℕ → Bool) : Option ℕ := (range T.count).find? fun row =>
    p row && (range T.count).all fun i => !(p i && decide (T.argKey row < T.argKey i))

/-- The value a function should have, which is `NULL` if there is no such row. -/
def expected (f : ValueFunction) (mode : WindowExcludeMode) (b : WindowBounds) (curRow : ℕ) : Option V :=
  let p := fun i => T.counted i && inFrame mode b curRow i
  match f with
  | .firstValue => (T.nthRow p 0).bind T.valueAt
  | .lastValue => (T.lastRow p).bind T.valueAt
  | .nthValue none => none
  | .nthValue (some n) => if n.toInt < 1 then none else (T.nthRow p (n.toNat - 1)).bind T.valueAt

end ValueTree

/-! ## The parts of a frame -/

section SubFrames

variable {mode : WindowExcludeMode} {b : WindowBounds} {curRow : ℕ}

/-- The parts are disjoint, with an exclusion also if the frame ends before it starts. -/
theorem evaluateSubFrames_disjoint (h : mode = .noOther → b.frameBegin ≤ b.frameEnd)
    (hprs : b.peerBegin ≤ curRow ∧ curRow < b.peerEnd) :
    ∃ s : DisjointFrames, s.frames = evaluateSubFrames mode b curRow := by
  refine ⟨⟨evaluateSubFrames mode b curRow, ?_, ?_⟩, rfl⟩
  · intro f hf
    cases mode <;> simp [evaluateSubFrames] at hf h
    · rw [hf]
      exact h
    iterate 2
      · rcases hf with rfl | rfl
        all_goals dsimp only
        all_goals omega
    · rcases hf with rfl | rfl | rfl
      all_goals dsimp only
      all_goals omega
  · intro v
    cases mode
    all_goals simp [evaluateSubFrames, countP_cons, FrameBounds.contains_iff]
    all_goals split_ifs
    all_goals omega

/-- The parts of a frame are the rows that are not excluded. -/
theorem evaluateSubFrames_ordered (mode : WindowExcludeMode) (hle : b.frameBegin ≤ b.frameEnd)
    (hprs : b.peerBegin ≤ curRow ∧ curRow < b.peerEnd) :
    ∃ s : DisjointFrames, s.frames = evaluateSubFrames mode b curRow ∧
      ∀ i, inFrames s.frames i = inFrame mode b curRow i := by
  obtain ⟨s, hfrms⟩ := @evaluateSubFrames_disjoint mode b curRow (fun _ => hle) hprs
  refine ⟨s, hfrms, fun i => ?_⟩
  rw [hfrms, Bool.eq_iff_iff]
  cases mode
  all_goals simp [evaluateSubFrames, inFrames, FrameBounds.contains_iff, inFrame, WindowExcludeMode.excludes]
  all_goals omega

/-- A frame that ends before it starts has no rows. -/
theorem inFrame_reversed (hlt : b.frameEnd < b.frameBegin) (i : ℕ) : inFrame mode b curRow i = false := by
  rw [inFrame, Bool.and_eq_false_iff, Bool.and_eq_false_iff, decide_eq_false_iff_not, decide_eq_false_iff_not]
  omega

/-- The parts are between the bounds of the frame, whichever of them comes first. -/
theorem mem_of_inFrames {i : ℕ} (h : inFrames (evaluateSubFrames mode b curRow) i = true) :
    min b.frameBegin b.frameEnd ≤ i ∧ i < max b.frameBegin b.frameEnd := by
  cases mode
  all_goals simp [evaluateSubFrames, inFrames, FrameBounds.contains_iff] at h
  all_goals omega

/-- The rows of the tree that lie in the parts can be selected. -/
theorem selects_evaluateSubFrames (rows : List ℕ) (mode : WindowExcludeMode)
    (hprs : b.peerBegin ≤ curRow ∧ curRow < b.peerEnd) :
    Selects rows (evaluateSubFrames mode b curRow) (rows.filter (inFrames (evaluateSubFrames mode b curRow))) := by
  by_cases h : mode = .noOther ∧ b.frameEnd < b.frameBegin
  · obtain ⟨rfl, hlt⟩ := h
    have hnone : rows.filter (inFrames (evaluateSubFrames .noOther b curRow)) = [] := by
      simp [evaluateSubFrames, inFrames, FrameBounds.contains_iff]
      omega
    rw [hnone]
    exact selects_reversed rows hlt
  · obtain ⟨s, hs⟩ := evaluateSubFrames_disjoint (fun hno => not_lt.1 (not_and.1 h hno)) hprs
    rw [← hs]
    exact selects_of_disjoint rows s

/-! ## The width -/

/-- The width of frames none of which ends before it starts. -/
theorem frameWidth_eq {frames : List FrameBounds} (h : ∀ f ∈ frames, f.start ≤ f.stop ∧ f.stop < idxRange)
    (hsum : (frames.map fun f => f.stop - f.start).sum < idxRange) :
    frameWidth frames = (frames.map fun f => f.stop - f.start).sum := by
  have hfold : ∀ (frames : List FrameBounds) (width : ℕ), (∀ f ∈ frames, f.start ≤ f.stop ∧ f.stop < idxRange) →
      width + (frames.map fun f => f.stop - f.start).sum < idxRange →
      frames.foldl (fun width frame => idxAdd width (idxSub frame.stop frame.start)) width =
        width + (frames.map fun f => f.stop - f.start).sum := by
    intro frames
    induction frames with
    | nil => exact fun _ _ _ => rfl
    | cons f frames ih =>
      intro width h hsum
      rw [map_cons, sum_cons] at hsum
      obtain ⟨hle, hlt⟩ := h f mem_cons_self
      have hadd : idxAdd width (idxSub f.stop f.start) = width + (f.stop - f.start) := by
        rw [idxSub_of_le hle hlt]
        exact Nat.mod_eq_of_lt (by omega)
      rw [foldl_cons, hadd, ih _ (fun g hg => h g (mem_cons_of_mem _ hg)) (by omega), map_cons,
        sum_cons, Nat.add_assoc]
  rw [frameWidth, hfold frames 0 h (by rwa [Nat.zero_add]), Nat.zero_add]

/-- No more rows lie in a frame than it is wide. -/
theorem countP_contains_le {rows : List ℕ} (hnd : rows.Nodup) (f : FrameBounds) :
    rows.countP (fun i => f.contains i) ≤ f.stop - f.start := by
  have hsub : rows.filter (fun i => f.contains i) ⊆ range' f.start (f.stop - f.start) := by
    intro i hi
    have hin := (FrameBounds.contains_iff f i).1 (mem_filter.1 hi).2
    rw [mem_range'_1]
    omega
  have hle := ((hnd.filter _).subperm hsub).length_le
  rwa [length_range', ← countP_eq_length_filter] at hle

theorem countP_or_le {α : Type*} (p q : α → Bool) (l : List α) :
    l.countP (fun a => p a || q a) ≤ l.countP p + l.countP q := by
  induction l with
  | nil => exact Nat.zero_le _
  | cons a l ih =>
    rw [countP_cons, countP_cons, countP_cons]
    cases p a with
    | true =>
      simp only [Bool.true_or]
      omega
    | false =>
      simp only [Bool.false_or]
      omega

theorem countP_inFrames_le {rows : List ℕ} (hnd : rows.Nodup) (frames : List FrameBounds) :
    rows.countP (inFrames frames) ≤ (frames.map fun f => f.stop - f.start).sum := by
  induction frames with
  | nil =>
    refine (countP_eq_zero.2 fun i _ => ?_).le
    exact Bool.false_ne_true
  | cons f frames ih =>
    have hor : rows.countP (inFrames (f :: frames)) ≤
        rows.countP (fun i => f.contains i) + rows.countP (inFrames frames) :=
      countP_or_le (fun i => f.contains i) (inFrames frames) rows
    exact hor.trans (Nat.add_le_add (countP_contains_le hnd f) ih)

/-- No more rows are found in the parts than their width tells. -/
theorem length_le_frameWidth {rows : List ℕ} (hnd : rows.Nodup) (mode : WindowExcludeMode)
    (hbeg : b.frameBegin < 2 ^ 63) (hend : b.frameEnd < 2 ^ 63) (hprs : b.peerBegin ≤ curRow ∧ curRow < b.peerEnd) :
    (rows.filter (inFrames (evaluateSubFrames mode b curRow))).length ≤
      frameWidth (evaluateSubFrames mode b curRow) := by
  rw [← countP_eq_length_filter]
  by_cases hbare : mode = .noOther ∧ b.frameEnd < b.frameBegin
  · obtain ⟨rfl, hlt⟩ := hbare
    refine (countP_eq_zero.2 fun i _ => ?_).le.trans (Nat.zero_le _)
    simp [evaluateSubFrames, inFrames, FrameBounds.contains_iff]
    omega
  · have hpts : (∀ f ∈ evaluateSubFrames mode b curRow, f.start ≤ f.stop ∧ f.stop < idxRange) ∧
        ((evaluateSubFrames mode b curRow).map fun f => f.stop - f.start).sum < idxRange := by
      cases mode
      all_goals simp [evaluateSubFrames, idxRange] at hbare ⊢
      all_goals omega
    rw [frameWidth_eq hpts.1 hpts.2]
    exact countP_inFrames_le hnd _

end SubFrames

/-! ## Rows in the order of the argument -/

/-- The only element that satisfies `p` is found. -/
theorem find?_eq_some_of_unique {α : Type*} {p : α → Bool} {l : List α} {a : α} (ha : a ∈ l) (hp : p a = true)
    (h : ∀ c ∈ l, p c = true → c = a) : l.find? p = some a := by
  cases hfind : l.find? p with
  | none => exact absurd hp (find?_eq_none.1 hfind a ha)
  | some c => rw [h c (mem_of_find?_eq_some hfind) (find?_some hfind)]

/-- In increasing order, the elements before one are those that are below it. -/
theorem countP_lt_getElem {K : Type*} [LinearOrder K] {key : ℕ → K} {l : List ℕ}
    (hl : l.Pairwise fun i j => key i < key j) {n : ℕ} (hn : n < l.length) :
    l.countP (fun i => decide (key i < key l[n])) = n := by
  induction l generalizing n with
  | nil => exact absurd hn (Nat.not_lt_zero n)
  | cons a l ih =>
    rw [pairwise_cons] at hl
    cases n with
    | zero =>
      rw [countP_eq_zero]
      intro i hi
      rw [getElem_cons_zero, decide_eq_true_iff, not_lt]
      rcases mem_cons.1 hi with rfl | hi
      · exact le_rfl
      · exact (hl.1 i hi).le
    | succ n =>
      have hn : n < l.length := Nat.lt_of_succ_lt_succ hn
      rw [getElem_cons_succ, countP_cons_of_pos, ih hl.2 hn]
      exact decide_eq_true (hl.1 _ (getElem_mem hn))

namespace ValueTree

variable {V K : Type*} [LinearOrder K] {T : ValueTree V K} {p : ℕ → Bool} {found : List ℕ}

omit [LinearOrder K] in
theorem mem_found (hperm : found.Perm ((range T.count).filter p)) {row : ℕ} :
    row ∈ found ↔ row < T.count ∧ p row = true := by
  rw [hperm.mem_iff, mem_filter, mem_range]

/-- The rows with `p` are numbered as in their list. -/
theorem nthRow_eq (hperm : found.Perm ((range T.count).filter p))
    (hsort : found.Pairwise fun i j => T.argKey i < T.argKey j) (n : ℕ) : T.nthRow p n = found[n]? := by
  have hcnt : ∀ row, (range T.count).countP (fun i => p i && decide (T.argKey i < T.argKey row)) =
      found.countP fun i => decide (T.argKey i < T.argKey row) := by
    intro row
    rw [hperm.countP_eq, countP_filter]
    exact countP_congr fun i _ => by rw [Bool.and_comm]
  have hnumber : ∀ row, row < T.count → (p row && (range T.count).countP (fun i => p i &&
      decide (T.argKey i < T.argKey row)) == n) = true → found[n]? = some row := by
    intro row hrow h
    rw [Bool.and_eq_true, beq_iff_eq, hcnt] at h
    obtain ⟨k, hk, rfl⟩ := getElem_of_mem ((mem_found hperm).2 ⟨hrow, h.1⟩)
    rw [← h.2, countP_lt_getElem hsort hk, getElem?_eq_getElem hk]
  rw [nthRow]
  rcases Nat.lt_or_ge n found.length with hn | hn
  · have hmem := (mem_found hperm).1 (getElem_mem hn)
    rw [getElem?_eq_getElem hn]
    refine find?_eq_some_of_unique (mem_range.2 hmem.1) ?_ fun row hrow h => ?_
    · rw [Bool.and_eq_true, beq_iff_eq, hcnt, countP_lt_getElem hsort hn]
      exact ⟨hmem.2, rfl⟩
    · have hget := hnumber row (mem_range.1 hrow) h
      rw [getElem?_eq_getElem hn] at hget
      exact (some.inj hget).symm
  · rw [getElem?_eq_none hn, find?_eq_none]
    intro row hrow h
    have hget := hnumber row (mem_range.1 hrow) h
    rw [getElem?_eq_none hn] at hget
    exact nomatch hget

theorem lastRow_eq (hperm : found.Perm ((List.range T.count).filter p))
    (hsort : found.Pairwise fun i j => T.argKey i < T.argKey j) : T.lastRow p = found[found.length - 1]? := by
  rw [lastRow]
  rcases Nat.eq_zero_or_pos found.length with hn | hn
  · obtain rfl := eq_nil_of_length_eq_zero hn
    rw [List.getElem?_nil, List.find?_eq_none]
    intro row hrow h
    rw [Bool.and_eq_true] at h
    exact absurd ((mem_found hperm).2 ⟨mem_range.1 hrow, h.1⟩) not_mem_nil
  · have hlst : found.length - 1 < found.length := Nat.sub_lt hn Nat.one_pos
    have hmem := (mem_found hperm).1 (getElem_mem hlst)
    rw [List.getElem?_eq_getElem hlst]
    refine find?_eq_some_of_unique (mem_range.2 hmem.1) ?_ fun row hrow h => ?_
    · rw [Bool.and_eq_true, List.all_eq_true]
      refine ⟨hmem.2, fun i hi => ?_⟩
      rw [Bool.not_eq_true', Bool.and_eq_false_iff, decide_eq_false_iff_not, not_lt]
      cases hp : p i with
      | false => exact .inl rfl
      | true =>
        obtain ⟨k, hk, rfl⟩ := getElem_of_mem ((mem_found hperm).2 ⟨mem_range.1 hi, hp⟩)
        rcases Nat.lt_or_ge k (found.length - 1) with hlt | hge
        · exact .inr (pairwise_iff_getElem.1 hsort k _ hk hlst hlt).le
        · obtain rfl : k = found.length - 1 := by omega
          exact .inr le_rfl
    · rw [Bool.and_eq_true, List.all_eq_true] at h
      obtain ⟨k, hk, rfl⟩ := getElem_of_mem ((mem_found hperm).2 ⟨mem_range.1 hrow, h.1⟩)
      have hbhd := h.2 _ (mem_range.2 hmem.1)
      rw [hmem.2, Bool.true_and, Bool.not_eq_true', decide_eq_false_iff_not] at hbhd
      rcases Nat.lt_or_ge k (found.length - 1) with hlt | hge
      · exact absurd (pairwise_iff_getElem.1 hsort k _ hk hlst hlt) hbhd
      · obtain rfl : k = found.length - 1 := by omega
        rfl

/-! ## When the value is right -/

variable (T) (mode : WindowExcludeMode) (b : WindowBounds) (curRow : ℕ)

/-- A row is in the tree, and in a part of the frame. -/
def selectable (i : ℕ) : Bool := T.counted i && inFrames (evaluateSubFrames mode b curRow) i

/-- How many rows are in the tree. -/
def treeCount : ℕ := (range T.count).countP T.counted

/-- How many of them are in the parts of the frame. -/
def selectableCount : ℕ := (range T.count).countP (T.selectable mode b curRow)

/-- The tree gives the value of the `n`-th row in the frame, or `NULL` if there is none. A single row of the tree is
    the one to find, or `NULL`. What is found is in the frame, which does not end before it starts, or `NULL`. -/
def FindsValue (n : ℕ) : Prop := T.treeCount ≠ 0 ∧
  (T.treeCount = 1 → n < T.selectableCount mode b curRow ∧ b.frameBegin ≤ b.frameEnd ∨
    ((range T.count).find? T.counted).bind T.valueAt = none) ∧
  (2 ≤ T.treeCount → n < T.selectableCount mode b curRow →
    b.frameBegin ≤ b.frameEnd ∨ (T.nthRow (T.selectable mode b curRow) n).bind T.valueAt = none)

/-- When a value function is right. `32 ^ 3` rows is what a tree has without cascading pointers. -/
def SelectsRight : ValueFunction → Prop
  | .firstValue => frameWidth (evaluateSubFrames mode b curRow) = 0 ∨ T.FindsValue mode b curRow 0 ∧
        -- Without a row to find, another one is copied.
        (2 ≤ T.treeCount → T.selectableCount mode b curRow = 0 →
          T.treeCount ≤ MergeSortTree.levelWidth 3 ∧ T.copyCell T.treeCount = some none)
  | .lastValue => frameWidth (evaluateSubFrames mode b curRow) = 0 ∨
      T.FindsValue mode b curRow (T.selectableCount mode b curRow - 1) ∧
        (2 ≤ T.treeCount → T.treeCount ≤ MergeSortTree.levelWidth 3 ∨
          T.selectableCount mode b curRow = frameWidth (evaluateSubFrames mode b curRow))
  | .nthValue none => True
  | .nthValue (some n) => n.toInt < 1 ∨
      (n.toNat < frameWidth (evaluateSubFrames mode b curRow) → T.FindsValue mode b curRow (n.toNat - 1) ∧
        (2 ≤ T.treeCount → T.treeCount ≤ MergeSortTree.levelWidth 3 ∨ n.toNat ≤ T.selectableCount mode b curRow)) ∧
      -- The last row of the width is not asked for.
      (n.toNat = frameWidth (evaluateSubFrames mode b curRow) →
        T.selectableCount mode b curRow < n.toNat ∨ b.frameEnd < b.frameBegin ∨
          (T.nthRow (T.selectable mode b curRow) (n.toNat - 1)).bind T.valueAt = none)

variable {T mode b curRow} {rows : List ℕ}

/-- The tree is over `rows`, of which `found` are in the parts of the frame, in the order of the argument. -/
structure Selecting (T : ValueTree V K) (mode : WindowExcludeMode) (b : WindowBounds) (curRow : ℕ)
    (rows found : List ℕ) : Prop where
  perm : rows.Perm ((range T.count).filter T.counted)
  selects : Selects rows (evaluateSubFrames mode b curRow) found
  subset : ∀ i ∈ found, i ∈ rows
  nthRow : ∀ n, T.nthRow (T.selectable mode b curRow) n = found[n]?
  selectableCount : T.selectableCount mode b curRow = found.length
  length_le : found.length ≤ frameWidth (evaluateSubFrames mode b curRow)
  expectedNth : ∀ n, T.nthRow (fun i => T.counted i && inFrame mode b curRow i) n =
    if b.frameBegin ≤ b.frameEnd then found[n]? else none
  expectedLast : T.lastRow (fun i => T.counted i && inFrame mode b curRow i) =
    if b.frameBegin ≤ b.frameEnd then found[found.length - 1]? else none

theorem Sorts.selecting (hcnt : T.count < 2 ^ 63) (hrs : T.Sorts rows) {pb pe : ℕ}
    (hbeg : pb ≤ b.frameBegin ∧ b.frameBegin ≤ pe) (hend : pb ≤ b.frameEnd ∧ b.frameEnd ≤ pe) (hpe : pe ≤ T.count)
    (hprs : b.peerBegin ≤ curRow ∧ curRow < b.peerEnd)
    (hdistinct : ∀ i j, pb ≤ i → i < pe → pb ≤ j → j < pe → T.argKey i = T.argKey j → i = j) :
    T.Selecting mode b curRow rows (rows.filter (inFrames (evaluateSubFrames mode b curRow))) := by
  have hperm := hrs.perm
  rw [sunk_eq] at hperm
  have hnd : rows.Nodup := hperm.nodup_iff.2 (nodup_range.filter _)
  have hfnd : (rows.filter (inFrames (evaluateSubFrames mode b curRow))).Perm
      ((range T.count).filter (T.selectable mode b curRow)) := by
    have hfilt := hperm.filter (inFrames (evaluateSubFrames mode b curRow))
    rw [List.filter_filter] at hfilt
    refine hfilt.trans (List.Perm.of_eq (filter_congr fun i _ => ?_))
    rw [selectable, Bool.and_comm]
  have hsort : (rows.filter (inFrames (evaluateSubFrames mode b curRow))).Pairwise
      fun i j => T.argKey i < T.argKey j := by
    have hboth := (hrs.sorted.filter (inFrames (evaluateSubFrames mode b curRow))).and (hnd.filter _)
    refine hboth.imp_of_mem fun {i j} hi hj h => h.1.lt_of_ne fun heq => h.2 ?_
    have hi := mem_of_inFrames (mem_filter.1 hi).2
    have hj := mem_of_inFrames (mem_filter.1 hj).2
    exact hdistinct i j (by omega) (by omega) (by omega) (by omega) heq
  have hordered : b.frameBegin ≤ b.frameEnd →
      (fun i => T.counted i && inFrame mode b curRow i) = T.selectable mode b curRow := by
    intro hle
    obtain ⟨s, hs, hin⟩ := evaluateSubFrames_ordered mode hle hprs
    funext i
    rw [selectable, ← hs, hin]
  -- A frame that ends before it starts has no rows at all.
  have hreversed : ¬b.frameBegin ≤ b.frameEnd →
      [].Perm ((range T.count).filter fun i => T.counted i && inFrame mode b curRow i) := by
    intro hlt
    refine List.Perm.of_eq (filter_eq_nil_iff.2 fun i _ => ?_).symm
    rw [inFrame_reversed (not_le.1 hlt), Bool.and_false]
    exact Bool.false_ne_true
  exact {
    perm := hperm
    selects := selects_evaluateSubFrames rows mode hprs
    subset := fun i hi => (mem_filter.1 hi).1
    nthRow := nthRow_eq hfnd hsort
    selectableCount := by rw [selectableCount, countP_eq_length_filter, hfnd.length_eq]
    length_le := length_le_frameWidth hnd mode (by omega) (by omega) hprs
    expectedNth := fun n => by
      split_ifs with hle
      · rw [hordered hle, nthRow_eq hfnd hsort]
      · rw [nthRow_eq (hreversed hle) .nil, List.getElem?_nil]
    expectedLast := by
      split_ifs with hle
      · rw [hordered hle, lastRow_eq hfnd hsort]
      · rw [lastRow_eq (hreversed hle) .nil, List.getElem?_nil] }

namespace Selecting

variable {found : List ℕ} (h : T.Selecting mode b curRow rows found)

include h

theorem treeCount_eq : T.treeCount = rows.length := by
  rw [treeCount, countP_eq_length_filter, h.perm.length_eq]

theorem copyCell_of_mem {row : ℕ} (hrow : row ∈ rows) : T.copyCell row = some (T.valueAt row) := by
  have hlt : row < T.cells.length := ((mem_found h.perm).1 hrow).1
  rw [copyCell, valueAt, getElem?_eq_getElem hlt, getD_eq_getElem _ _ hlt]

theorem copyCell_single {row : ℕ} (hrs : rows = [row]) : T.copyCell row = some (T.valueAt row) := by
  refine h.copyCell_of_mem ?_
  rw [hrs]
  exact mem_singleton_self row

theorem copyCell_found {n : ℕ} (hn : n < found.length) :
    T.copyCell found[n] = some ((found[n]?).bind T.valueAt) := by
  rw [h.copyCell_of_mem (h.subset _ (getElem_mem hn)), getElem?_eq_getElem hn]
  rfl

theorem find?_counted {row : ℕ} (hrs : rows = [row]) : (range T.count).find? T.counted = some row := by
  have hperm := h.perm
  rw [hrs] at hperm
  rw [← head?_filter, ← singleton_perm.1 hperm]
  rfl

/-- The row with the number `n`, if the tree has only one row. -/
theorem getElem?_single {row n : ℕ} (hrs : rows = [row]) (hn : n < found.length) : found[n]? = some row := by
  have hmem := h.subset _ (getElem_mem hn)
  rw [hrs, mem_singleton] at hmem
  rw [getElem?_eq_getElem hn, hmem]

/-- With a single row, it is returned whatever its number. -/
theorem single_iff {row n : ℕ} (hrs : rows = [row]) : some (T.valueAt row) =
      some ((if b.frameBegin ≤ b.frameEnd then found[n]? else none).bind T.valueAt) ↔
    T.FindsValue mode b curRow n := by
  have htree : T.treeCount = 1 := by rw [h.treeCount_eq, hrs]; rfl
  have honly := h.find?_counted hrs
  simp only [FindsValue, htree, honly, h.selectableCount]
  by_cases hn : n < found.length ∧ b.frameBegin ≤ b.frameEnd
  · rw [if_pos hn.2, h.getElem?_single hrs hn.1]
    simp [hn]
  · have hno : (if b.frameBegin ≤ b.frameEnd then found[n]? else none) = none := by
      split_ifs with hle
      · exact getElem?_eq_none (not_lt.1 fun hlt => hn ⟨hlt, hle⟩)
      · rfl
    rw [hno]
    simp [hn]

/-- With more rows, the one with the number is returned if there is one. -/
theorem found_iff {n : ℕ} (hrs : 2 ≤ rows.length) (hn : n < found.length) : some ((found[n]?).bind T.valueAt) =
      some ((if b.frameBegin ≤ b.frameEnd then found[n]? else none).bind T.valueAt) ↔
    T.FindsValue mode b curRow n := by
  have htree := h.treeCount_eq
  have hne : T.treeCount ≠ 0 := by omega
  have hone : T.treeCount ≠ 1 := by omega
  have hfind : T.FindsValue mode b curRow n ↔ b.frameBegin ≤ b.frameEnd ∨ (found[n]?).bind T.valueAt = none := by
    rw [FindsValue, h.selectableCount, h.nthRow]
    exact ⟨fun hf => hf.2.2 (htree ▸ hrs) hn, fun hf => ⟨hne, fun h => absurd h hone, fun _ _ => hf⟩⟩
  rw [hfind]
  split_ifs with hle
  · exact iff_of_true rfl (.inl hle)
  · rw [some_inj, bind_none]
    exact ⟨.inr, fun hor => hor.resolve_left hle⟩

theorem findsValue_of_length_le {n : ℕ} (hrs : 2 ≤ rows.length) (hn : found.length ≤ n) :
    T.FindsValue mode b curRow n := by
  have htree := h.treeCount_eq
  refine ⟨by omega, fun hone => absurd hone (by omega), fun _ hlt => absurd hlt ?_⟩
  rw [h.selectableCount]
  omega

theorem not_findsValue_nil {n : ℕ} (hrs : rows = []) : ¬T.FindsValue mode b curRow n := by
  intro hfind
  refine hfind.1 ?_
  rw [h.treeCount_eq, hrs]
  rfl

theorem rows_cases : rows = [] ∨ (∃ row, rows = [row]) ∨ 2 ≤ rows.length := by
  match rows with
  | [] => exact .inl rfl
  | [row] => exact .inr (.inl ⟨row, rfl⟩)
  | _ :: _ :: rows => exact .inr (.inr (Nat.le_add_left 2 _))

theorem firstValue_iff : (T.SelectsRight mode b curRow .firstValue → T.evaluate .firstValue rows mode b curRow =
      some (T.expected .firstValue mode b curRow)) ∧
    (T.treeCount ≤ MergeSortTree.levelWidth 3 → T.evaluate .firstValue rows mode b curRow =
      some (T.expected .firstValue mode b curRow) → T.SelectsRight mode b curRow .firstValue) := by
  have htree := h.treeCount_eq
  have hle := h.length_le
  simp only [evaluate, firstValue, expected, SelectsRight, h.expectedNth]
  by_cases hwid : frameWidth (evaluateSubFrames mode b curRow) = 0
  · have hnil : found = [] := eq_nil_of_length_eq_zero (by omega)
    rw [if_neg (not_not.2 hwid), hnil, getElem?_nil, ite_self]
    exact ⟨fun _ => rfl, fun _ _ => .inl hwid⟩
  rw [if_pos hwid, or_iff_right hwid]
  rcases h.rows_cases with hrs | ⟨row, hrs⟩ | hrs
  · rw [h.selects.empty hrs]
    exact ⟨fun hrt => absurd hrt.1 (h.not_findsValue_nil hrs), fun _ hno => nomatch hno⟩
  · have hone : ¬2 ≤ T.treeCount := by
      rw [htree, hrs]
      exact Nat.not_succ_le_self 1
    rw [h.selects.single row hrs, bind_some]
    rw [h.copyCell_single hrs, h.single_iff hrs]
    exact ⟨fun hrt => hrt.1, fun _ hfind => ⟨hfind, fun htwo => absurd htwo hone⟩⟩
  · rcases Nat.eq_zero_or_pos found.length with hnil | hpos
    · -- There is no such row, and the one behind the end of the tree is copied.
      have hno : (if b.frameBegin ≤ b.frameEnd then found[0]? else none) = none := by
        rw [getElem?_eq_none hnil.le, ite_self]
      have hcop : rows.length ≤ MergeSortTree.levelWidth 3 →
          (indexSelectNth (.build rows) (evaluateSubFrames mode b curRow) 0).bind (fun firstIdx =>
            T.copyCell firstIdx.1) = T.copyCell T.treeCount := by
        intro hhigh
        rw [h.selects.miss hrs hhigh 0 hnil.le, bind_some, htree]
      rw [hno, bind_none, h.selectableCount]
      constructor
      · intro hrt
        obtain ⟨hhigh, hcell⟩ := hrt.2 (htree ▸ hrs) hnil
        rw [hcop (htree ▸ hhigh), hcell]
      · intro hhigh hcell
        rw [hcop (htree ▸ hhigh)] at hcell
        exact ⟨h.findsValue_of_length_le hrs hnil.le, fun _ _ => ⟨hhigh, hcell⟩⟩
    · rw [h.selects.hit 0 hpos, bind_some]
      rw [h.copyCell_found hpos, h.found_iff hrs hpos, h.selectableCount]
      exact ⟨fun hrt => hrt.1, fun _ hfind => ⟨hfind, fun _ hz => absurd hz hpos.ne'⟩⟩

theorem lastValue_eq (hrs : 2 ≤ rows.length) (hwid : frameWidth (evaluateSubFrames mode b curRow) ≠ 0)
    (hknown : rows.length ≤ MergeSortTree.levelWidth 3 ∨
      found.length = frameWidth (evaluateSubFrames mode b curRow)) :
    T.lastValue (.build rows) (evaluateSubFrames mode b curRow) =
      some ((found[found.length - 1]?).bind T.valueAt) := by
  have hle := h.length_le
  rw [lastValue, if_pos hwid]
  dsimp only
  generalize hw : frameWidth (evaluateSubFrames mode b curRow) = w at *
  rcases hle.lt_or_eq with hlt | heq
  · -- Some rows of the frame are not in the tree.
    have hhigh := hknown.resolve_right hlt.ne
    have hmiss : w - 1 + 1 - found.length = w - found.length := by omega
    rw [h.selects.miss hrs hhigh (w - 1) (by omega), hmiss, bind_some]
    rcases Nat.eq_zero_or_pos found.length with hnil | hpos
    · rw [if_neg (by omega), bind_some, if_pos (show w - found.length ≠ 0 by omega),
        getElem?_eq_none (by omega), bind_none]
    · have hback : w - 1 - (w - found.length) = found.length - 1 := by omega
      have hlst : found.length - 1 < found.length := Nat.sub_lt hpos Nat.one_pos
      rw [if_pos (by omega), hback, h.selects.hit _ hlst, bind_some]
      rw [if_neg (not_not.2 rfl), h.copyCell_found hlst]
  · have hlst : found.length - 1 < found.length := by omega
    rw [← heq, h.selects.hit _ hlst, bind_some]
    rw [if_neg (fun h => h.1 rfl), bind_some, if_neg (not_not.2 rfl), h.copyCell_found hlst]

theorem lastValue_iff : (T.SelectsRight mode b curRow .lastValue → T.evaluate .lastValue rows mode b curRow =
      some (T.expected .lastValue mode b curRow)) ∧
    (T.treeCount ≤ MergeSortTree.levelWidth 3 → T.evaluate .lastValue rows mode b curRow =
      some (T.expected .lastValue mode b curRow) → T.SelectsRight mode b curRow .lastValue) := by
  have htree := h.treeCount_eq
  have hle := h.length_le
  simp only [evaluate, expected, SelectsRight, h.expectedLast]
  by_cases hwid : frameWidth (evaluateSubFrames mode b curRow) = 0
  · have hnil : found = [] := eq_nil_of_length_eq_zero (by omega)
    rw [lastValue, if_neg (not_not.2 hwid), hnil, getElem?_nil, ite_self]
    exact ⟨fun _ => rfl, fun _ _ => .inl hwid⟩
  rw [or_iff_right hwid, h.selectableCount]
  rcases h.rows_cases with hrs | ⟨row, hrs⟩ | hrs
  · rw [lastValue, if_pos hwid]
    dsimp only
    rw [h.selects.empty hrs]
    exact ⟨fun hrt => absurd hrt.1 (h.not_findsValue_nil hrs), fun _ hno => nomatch hno⟩
  · have hone : ¬2 ≤ T.treeCount := by
      rw [htree, hrs]
      exact Nat.not_succ_le_self 1
    rw [lastValue, if_pos hwid]
    dsimp only
    rw [h.selects.single row hrs, bind_some]
    rw [if_neg (fun h => h.1 rfl), bind_some, if_neg (not_not.2 rfl), h.copyCell_single hrs, h.single_iff hrs]
    exact ⟨fun hrt => hrt.1, fun _ hfind => ⟨hfind, fun htwo => absurd htwo hone⟩⟩
  · have htwo : 2 ≤ T.treeCount := htree ▸ hrs
    have hrt : (rows.length ≤ MergeSortTree.levelWidth 3 ∨
          found.length = frameWidth (evaluateSubFrames mode b curRow)) →
        (T.lastValue (.build rows) (evaluateSubFrames mode b curRow) =
            some ((if b.frameBegin ≤ b.frameEnd then found[found.length - 1]? else none).bind T.valueAt) ↔
          T.FindsValue mode b curRow (found.length - 1)) := by
      intro hknown
      rw [h.lastValue_eq hrs hwid hknown]
      rcases Nat.eq_zero_or_pos found.length with hnil | hpos
      · refine iff_of_true ?_ (h.findsValue_of_length_le hrs (by omega))
        rw [getElem?_eq_none (by omega), ite_self]
      · exact h.found_iff hrs (Nat.sub_lt hpos Nat.one_pos)
    constructor
    · exact fun hsels => (hrt (htree ▸ hsels.2 htwo)).2 hsels.1
    · exact fun hhigh hval => ⟨(hrt (.inl (htree ▸ hhigh))).1 hval, fun _ => .inl hhigh⟩

theorem nthValue_iff (n : Option (BitVec 64)) :
    (T.SelectsRight mode b curRow (.nthValue n) → T.evaluate (.nthValue n) rows mode b curRow =
      some (T.expected (.nthValue n) mode b curRow)) ∧
    (T.treeCount ≤ MergeSortTree.levelWidth 3 → T.evaluate (.nthValue n) rows mode b curRow =
      some (T.expected (.nthValue n) mode b curRow) → T.SelectsRight mode b curRow (.nthValue n)) := by
  have htree := h.treeCount_eq
  have hle := h.length_le
  cases n with
  | none => exact ⟨fun _ => rfl, fun _ _ => trivial⟩
  | some n =>
  simp only [evaluate, nthValue, expected, SelectsRight, h.expectedNth, h.selectableCount, h.nthRow]
  by_cases hneg : n.toInt < 1
  · rw [if_pos hneg, if_pos hneg]
    exact ⟨fun _ => rfl, fun _ _ => .inl hneg⟩
  have hpos : 1 ≤ n.toNat := by
    rcases Nat.eq_zero_or_pos n.toNat with hz | hpos
    · obtain rfl : n = 0 := BitVec.eq_of_toNat_eq hz
      exact absurd (by decide) hneg
    · exact hpos
  rw [if_neg hneg, if_neg hneg, or_iff_right hneg]
  generalize frameWidth (evaluateSubFrames mode b curRow) = w at *
  rcases Nat.lt_trichotomy n.toNat w with hlt | heq | hgt
  · rw [if_pos hlt]
    simp only [hlt, hlt.ne, forall_const, false_implies, and_true]
    rcases h.rows_cases with hrs | ⟨row, hrs⟩ | hrs
    · rw [h.selects.empty hrs]
      exact ⟨fun hrt => absurd hrt.1 (h.not_findsValue_nil hrs), fun _ hno => nomatch hno⟩
    · have hone : ¬2 ≤ T.treeCount := by
        rw [htree, hrs]
        exact Nat.not_succ_le_self 1
      rw [h.selects.single row hrs, bind_some]
      rw [if_neg (not_not.2 rfl), h.copyCell_single hrs, h.single_iff hrs]
      exact ⟨fun hrt => hrt.1, fun _ hfind => ⟨hfind, fun htwo => absurd htwo hone⟩⟩
    · have htwo : 2 ≤ T.treeCount := htree ▸ hrs
      rcases Nat.lt_or_ge (n.toNat - 1) found.length with hfnd | hmiss
      · rw [h.selects.hit _ hfnd, bind_some]
        rw [if_neg (not_not.2 rfl), h.copyCell_found hfnd, h.found_iff hrs hfnd]
        exact ⟨fun hrt => hrt.1, fun hhigh hfind => ⟨hfind, fun _ => .inl hhigh⟩⟩
      · -- There is no such row, which is seen from what remains.
        have hfind := h.findsValue_of_length_le hrs hmiss
        have hno : (if b.frameBegin ≤ b.frameEnd then found[n.toNat - 1]? else none) = none := by
          rw [getElem?_eq_none hmiss, ite_self]
        rw [hno]
        constructor
        · intro hrt
          have hhigh := (hrt.2 htwo).resolve_right (by omega)
          rw [h.selects.miss hrs (htree ▸ hhigh) _ hmiss, bind_some]
          exact if_pos (show n.toNat - 1 + 1 - found.length ≠ 0 by omega)
        · exact fun hhigh _ => ⟨hfind, fun _ => .inl hhigh⟩
  · have hiff : none = (if b.frameBegin ≤ b.frameEnd then found[n.toNat - 1]? else none).bind T.valueAt ↔
        found.length < n.toNat ∨ b.frameEnd < b.frameBegin ∨ (found[n.toNat - 1]?).bind T.valueAt = none := by
      split_ifs with hordered
      · constructor
        · exact fun hno => .inr (.inr hno.symm)
        · rintro (hless | hreversed | hno)
          · rw [getElem?_eq_none (by omega), bind_none]
          · exact absurd hreversed hordered.not_gt
          · exact hno.symm
      · exact iff_of_true rfl (.inr (.inl (not_le.1 hordered)))
    rw [if_neg heq.not_lt, some_inj, hiff]
    exact ⟨fun hrt => hrt.2 heq, fun _ hcond => ⟨fun hlt => absurd hlt heq.not_lt, fun _ => hcond⟩⟩
  · rw [if_neg hgt.not_gt]
    have hno : (if b.frameBegin ≤ b.frameEnd then found[n.toNat - 1]? else none) = none := by
      rw [getElem?_eq_none (by omega), ite_self]
    rw [hno]
    exact ⟨fun _ => rfl, fun _ _ => ⟨fun hlt => absurd hlt hgt.not_gt, fun heq => absurd heq hgt.ne'⟩⟩

end Selecting

/-- In a partition without equal arguments, a value function is right if it selects right, and in trees without
    cascading pointers only then. -/
theorem evaluate_iff (T : ValueTree V K) (hcount : T.count < 2 ^ 63) {rows : List ℕ} (hrows : T.Sorts rows)
    (mode : WindowExcludeMode) {b : WindowBounds} {curRow pb pe : ℕ} (hbegin : pb ≤ b.frameBegin ∧ b.frameBegin ≤ pe)
    (hend : pb ≤ b.frameEnd ∧ b.frameEnd ≤ pe) (hpe : pe ≤ T.count)
    (hpeers : b.peerBegin ≤ curRow ∧ curRow < b.peerEnd)
    (hdistinct : ∀ i j, pb ≤ i → i < pe → pb ≤ j → j < pe → T.argKey i = T.argKey j → i = j) (f : ValueFunction) :
    (T.SelectsRight mode b curRow f → T.evaluate f rows mode b curRow = some (T.expected f mode b curRow)) ∧
      (T.treeCount ≤ MergeSortTree.levelWidth 3 →
        T.evaluate f rows mode b curRow = some (T.expected f mode b curRow) → T.SelectsRight mode b curRow f) := by
  have h : T.Selecting mode b curRow rows _ := hrows.selecting hcount hbegin hend hpe hpeers hdistinct
  cases f with
  | firstValue => exact h.firstValue_iff
  | lastValue => exact h.lastValue_iff
  | nthValue n => exact h.nthValue_iff n


/-- Three rows, ordered by their positions; the one in the middle is `NULL` and does not count. -/
def tenNullTwenty : ValueTree ℕ ℕ where
  ignoreNulls := true
  chunks := [{
    cells := [some 10, none, some 20]
    validity := ⟨some fun _ => 0b101⟩
    validity_eq := by decide }]
  argKey row := row

theorem tenNullTwenty_sorts : tenNullTwenty.Sorts [0, 2] := ⟨by decide, by decide⟩

theorem evaluate_iff_tenNullTwenty :
    (tenNullTwenty.SelectsRight .noOther ⟨0, 3, 1, 2⟩ 1 .lastValue →
      tenNullTwenty.evaluate .lastValue [0, 2] .noOther ⟨0, 3, 1, 2⟩ 1 =
        some (tenNullTwenty.expected .lastValue .noOther ⟨0, 3, 1, 2⟩ 1)) ∧
      (tenNullTwenty.treeCount ≤ MergeSortTree.levelWidth 3 →
        tenNullTwenty.evaluate .lastValue [0, 2] .noOther ⟨0, 3, 1, 2⟩ 1 =
          some (tenNullTwenty.expected .lastValue .noOther ⟨0, 3, 1, 2⟩ 1) →
        tenNullTwenty.SelectsRight .noOther ⟨0, 3, 1, 2⟩ 1 .lastValue) :=
  evaluate_iff tenNullTwenty (by decide) tenNullTwenty_sorts .noOther
    (show 0 ≤ 0 ∧ 0 ≤ 3 by decide) (show 0 ≤ 3 ∧ 3 ≤ 3 by decide) (by decide) (by decide) (fun _ _ _ _ _ _ h => h)
    .lastValue

/-- In a frame with only the `NULL`, the first value is that of another row; in one of one row, `nth_value` finds no
    first one. -/
theorem evaluate_ne_expected :
    tenNullTwenty.evaluate .firstValue [0, 2] .noOther ⟨1, 2, 1, 2⟩ 1 = some (some 20) ∧
      tenNullTwenty.expected .firstValue .noOther ⟨1, 2, 1, 2⟩ 1 = none ∧
      tenNullTwenty.evaluate (.nthValue (some 1)) [0, 2] .noOther ⟨0, 1, 0, 1⟩ 0 = some none ∧
      tenNullTwenty.expected (.nthValue (some 1)) .noOther ⟨0, 1, 0, 1⟩ 0 = some 10 := by
  have h : tenNullTwenty.Selecting .noOther ⟨1, 2, 1, 2⟩ 1 [0, 2] _ :=
    tenNullTwenty_sorts.selecting (by decide) (show 0 ≤ 1 ∧ 1 ≤ 3 by decide) (show 0 ≤ 2 ∧ 2 ≤ 3 by decide)
      (by decide) (by decide) fun _ _ _ _ _ _ h => h
  have hwid : frameWidth (evaluateSubFrames .noOther ⟨1, 2, 1, 2⟩ 1) ≠ 0 := by decide
  rw [evaluate, firstValue, if_pos hwid, h.selects.miss (by decide) (by decide) 0 (by decide)]
  decide

end ValueTree

end WfOpt

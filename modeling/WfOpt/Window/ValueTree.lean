import WfOpt.Common.ValidityMask
import WfOpt.Window.MergeSortTreeSelect

/-!
# The value tree

With an order of its own for its argument, a value function has a merge sort tree over the rows of the group
(`WindowIndexTree`), under `IGNORE NULLS` without those whose argument is `NULL` (`sunk_eq`). A row is selected by its
number among those of the tree that lie in the frames (`Selects`).
-/

namespace WfOpt

open List

/-! ## Model -/

/-- The argument in a chunk of rows, with its validity mask. -/
structure ArgumentChunk (V : Type*) where
  cells : List (Option V)
  validity : ValidityMask
  validity_eq : ∀ i < cells.length, validity.rowIsValid i = (cells.getD i none).isSome

/-- What the value tree is built from: the argument of the rows of a group, and what it is ordered by. -/
structure ValueTree (V K : Type*) where
  ignoreNulls : Bool
  chunks : List (ArgumentChunk V)
  argKey : ℕ → K

namespace ValueTree

variable {V K : Type*} (T : ValueTree V K)

/-- The argument in the collection. -/
def cells : List (Option V) := (T.chunks.map fun chunk => chunk.cells).flatten

/-- The number of rows of the group. -/
def count : ℕ := T.cells.length

/-- The value of a row. -/
def valueAt (row : ℕ) : Option V := T.cells.getD row none

/-- `CopyCell`, which fails if there is no such row. -/
def copyCell (row : ℕ) : Option (Option V) := T.cells[row]?

/-- `Sink`: the rows of a chunk that are sorted. -/
def sink (chunk : ArgumentChunk V) (inputIdx : ℕ) : List ℕ :=
  if T.ignoreNulls && chunk.validity.validityMask.isSome then
    ((range chunk.cells.length).filter chunk.validity.rowIsValid).map (inputIdx + ·)
  else (range chunk.cells.length).map (inputIdx + ·)

/-- The rows of all chunks that are sorted, from the row `inputIdx` on. -/
def sinkFrom (inputIdx : ℕ) : List (ArgumentChunk V) → List ℕ
  | [] => []
  | chunk :: chunks => T.sink chunk inputIdx ++ sinkFrom (inputIdx + chunk.cells.length) chunks

/-- The index column after the sort, which is not stable. -/
structure Sorts [LinearOrder K] (rows : List ℕ) : Prop where
  perm : rows.Perm (T.sinkFrom 0 T.chunks)
  sorted : rows.Pairwise fun i j => T.argKey i ≤ T.argKey j

/-- A row counts: under `IGNORE NULLS`, its value is not `NULL`. -/
def counted (row : ℕ) : Bool := !T.ignoreNulls || (T.valueAt row).isSome

end ValueTree

/-- `WindowIndexTree::SelectNth`, which fails if there is no such element in the tree. -/
def indexSelectNth (tree : MergeSortTree ℕ) (frames : List FrameBounds) (n : ℕ) : Option (ℕ × ℕ) :=
  let nth := tree.selectNth frames n
  if nth.2 ≠ 0 then some nth
  else if nth.1 < tree.count then some (tree.elements 0 nth.1, 0)
  else none

/-! ## The rows of the tree -/

namespace ValueTree

variable {V K : Type*} {T : ValueTree V K}

theorem sink_eq (chunk : ArgumentChunk V) (inputIdx : ℕ) : T.sink chunk inputIdx =
    (range' inputIdx chunk.cells.length).filter
      fun row => !T.ignoreNulls || (chunk.cells.getD (row - inputIdx) none).isSome := by
  have hrng : range' inputIdx chunk.cells.length =
      (range chunk.cells.length).map (inputIdx + ·) := range'_eq_map_range
  rw [sink, hrng, filter_map]
  cases hnulls : T.ignoreNulls with
  | false => simp
  | true =>
    have hvld : (range chunk.cells.length).filter
          ((fun row => !true || (chunk.cells.getD (row - inputIdx) none).isSome) ∘ (inputIdx + ·)) =
        (range chunk.cells.length).filter chunk.validity.rowIsValid := by
      refine filter_congr fun i hi => ?_
      rw [Function.comp_apply, Nat.add_sub_cancel_left, chunk.validity_eq i (mem_range.1 hi)]
      rfl
    rw [hvld]
    cases hmask : chunk.validity.validityMask with
    | some mask => rfl
    | none =>
      -- Without a mask, all rows are valid.
      have hall : (range chunk.cells.length).filter chunk.validity.rowIsValid = range chunk.cells.length := by
        refine filter_eq_self.2 fun i _ => ?_
        rw [ValidityMask.rowIsValid, ValidityMask.getValidityEntry, hmask]
        exact ValidityMask.rowIsValid_new i
      rw [hall]
      rfl

theorem sinkFrom_eq (inputIdx : ℕ) (chunks : List (ArgumentChunk V)) : T.sinkFrom inputIdx chunks =
      (range' inputIdx (chunks.map fun chunk => chunk.cells).flatten.length).filter fun row =>
        !T.ignoreNulls ||
          ((chunks.map fun chunk => chunk.cells).flatten.getD (row - inputIdx) none).isSome := by
  induction chunks generalizing inputIdx with
  | nil => rfl
  | cons chunk chunks ih =>
    rw [sinkFrom, sink_eq, ih, map_cons, flatten_cons, length_append, ← range'_append_1, filter_append]
    refine congrArg₂ _ (filter_congr fun row hrow => ?_) (filter_congr fun row hrow => ?_)
    · rw [mem_range'_1] at hrow
      rw [getD_append _ _ _ _ (by omega)]
    · rw [mem_range'_1] at hrow
      rw [getD_append_right _ _ _ _ (by omega), Nat.sub_sub]

/-- The rows that count are sorted. -/
theorem sunk_eq : T.sinkFrom 0 T.chunks = (range T.count).filter T.counted := by
  rw [sinkFrom_eq, ← range_eq_range']
  rfl

end ValueTree

/-! ## Selecting a row -/

/-- The `n`-th of the elements that satisfy `p`. -/
theorem getElem?_filter_of_countP {α : Type*} {p : α → Bool} {l : List α} {pos : ℕ} (hpos : pos < l.length)
    (h : p l[pos] = true) : (l.filter p)[(l.take pos).countP p]? = some l[pos] := by
  have hspl : l = l.take pos ++ l[pos] :: l.drop (pos + 1) := by
    rw [getElem_cons_drop, take_append_drop]
  conv_lhs =>
    rw [hspl]
  rw [filter_append, filter_cons_of_pos h, take_left' (by rw [length_take]; omega),
    countP_eq_length_filter, getElem?_append_right le_rfl, Nat.sub_self]
  rfl

/-- What is selected from a tree over `rows`, of which `found` lie in the frames: with two rows or more and no
    cascading pointers, the number of missing rows remains. -/
structure Selects (rows : List ℕ) (frames : List FrameBounds) (found : List ℕ) : Prop where
  hit : ∀ n (h : n < found.length), indexSelectNth (.build rows) frames n = some (found[n], 0)
  empty : rows = [] → ∀ n, indexSelectNth (.build rows) frames n = none
  single : ∀ row, rows = [row] → ∀ n, indexSelectNth (.build rows) frames n = some (row, 0)
  miss : 2 ≤ rows.length → rows.length ≤ MergeSortTree.levelWidth 3 → ∀ n, found.length ≤ n →
    indexSelectNth (.build rows) frames n = some (rows.length, n + 1 - found.length)

open MergeSortTree

theorem indexSelectNth_empty (frames : List FrameBounds) (n : ℕ) : indexSelectNth (.build []) frames n = none := by
  obtain ⟨hbt, hcnt⟩ := build_built ([] : List ℕ)
  have hsz := hbt.size_eq
  rw [hcnt, levelsAbove, if_neg (by decide)] at hsz
  have hselect : (build ([] : List ℕ)).selectNth frames n = (0, 0) := by
    rw [selectNth, if_pos (by omega)]
  rw [indexSelectNth, hselect]
  rw [if_neg (by decide), if_neg (by rw [hcnt]; decide)]

theorem indexSelectNth_single (row : ℕ) (frames : List FrameBounds) (n : ℕ) :
    indexSelectNth (.build [row]) frames n = some (row, 0) := by
  obtain ⟨hbt, hcnt⟩ := build_built [row]
  have hsz := hbt.size_eq
  have hpos : 0 < (build [row]).count := hcnt ▸ Nat.one_pos
  have hlowest := hbt.lowest 0 hpos
  rw [hcnt, levelsAbove, if_neg (fun h => absurd h.2 (lt_irrefl _))] at hsz
  have hselect : (build [row]).selectNth frames n = (0, 0) := by
    rw [selectNth, if_pos (by omega)]
  rw [indexSelectNth, hselect]
  rw [if_neg (by decide), if_pos hpos, hlowest]
  rfl

/-- If rows are missing, the end of the tree is returned, with their number. -/
theorem indexSelectNth_missed {rows : List ℕ} {frames : List FrameBounds} {total : ℕ → ℕ}
    (h : (build rows).Finds frames total) (hlow : 2 ≤ rows.length) (hhigh : rows.length ≤ levelWidth 3) {n : ℕ}
    (hn : total rows.length ≤ n) :
    indexSelectNth (.build rows) frames n = some (rows.length, n + 1 - total rows.length) := by
  rw [indexSelectNth, selectNth_missed rows hlow hhigh h hn]
  exact if_pos (show n + 1 - total rows.length ≠ 0 by omega)

theorem selects_of_disjoint (rows : List ℕ) (s : DisjointFrames) :
    Selects rows s.frames (rows.filter (inFrames s.frames)) where
  hit n h := by
    rw [← countP_eq_length_filter] at h
    obtain ⟨pos, hpos, hselect, hin, htake⟩ := selectNth_found rows s h
    obtain ⟨hbt, hcnt⟩ := build_built rows
    have hget := getElem?_filter_of_countP hpos hin
    rw [htake, getElem?_eq_getElem (by rwa [← countP_eq_length_filter])] at hget
    rw [indexSelectNth, hselect]
    rw [if_neg (fun h => h rfl), hcnt, if_pos hpos, hbt.lowest pos (by rwa [hcnt]), Option.some.inj hget,
      getD_eq_getElem _ _ hpos]
  empty h n := by
    subst h
    exact indexSelectNth_empty _ n
  single row h n := by
    subst h
    exact indexSelectNth_single row _ n
  miss hlow hhigh n hn := by
    obtain ⟨hbt, hcnt⟩ := build_built rows
    have htot : framedBefore (fun i => rows.getD i default) s rows.length =
        (rows.filter (inFrames s.frames)).length := by
      rw [framedBefore_getD rows s le_rfl, take_length, countP_eq_length_filter]
    rw [indexSelectNth_missed (hbt.finds s) hlow hhigh (htot ▸ hn), htot]

/-- In a frame that ends before it starts, nothing is found. -/
theorem selects_reversed (rows : List ℕ) {f : FrameBounds} (hf : f.stop < f.start) : Selects rows [f] [] where
  hit _ h := absurd h (Nat.not_lt_zero _)
  empty h n := by
    subst h
    exact indexSelectNth_empty _ n
  single row h n := by
    subst h
    exact indexSelectNth_single row _ n
  miss hlow hhigh n hn := indexSelectNth_missed (finds_reversed _ hf) hlow hhigh hn

end WfOpt

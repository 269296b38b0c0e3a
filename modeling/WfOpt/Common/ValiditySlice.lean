import WfOpt.Common.ValidityMask

/-!
# Slices of validity masks

Rows of one mask are copied to other rows of a second mask (`ValidityMask.sliceInPlace`): by entries if both begin at
one, by shifted entries if only the second ones do, row by row otherwise. Nothing else changes, unless shifted entries
are needed of a mask that has none (`ValidityMask.slices_iff`), which does not happen to the callers
(`ValidityMask.slice_spec`, `ValidityMask.copySel_spec`).
-/

namespace WfOpt

open Option List Function

namespace ValidityMask

/-- The entry `i` from `start` on, all rows of a mask without entries being valid. -/
def entryFrom (source : Option (ℕ → BitVec 64)) (start i : ℕ) : BitVec 64 := match source with
  | none => BitVec.allOnes 64
  | some entries => entries (start + i)

/-- `SliceInPlace` if both offsets are aligned, in entries: whole units and the rows behind them. -/
def copyUnits (target : ℕ → BitVec 64) (source : Option (ℕ → BitVec 64)) (targetEntry sourceEntry count : ℕ) :
    ℕ → BitVec 64 :=
  let ragged := count % 64
  let entireUnits := count / 64
  let target := (range entireUnits).foldl
    (fun target i => update target (targetEntry + i) (entryFrom source sourceEntry i)) target
  if ragged = 0 then target
  else
    let srcEntry := entryFrom source sourceEntry entireUnits &&& (BitVec.allOnes 64 >>> (64 - ragged))
    let tgtEntry := target (targetEntry + entireUnits) &&& (BitVec.allOnes 64 <<< ragged)
    update target (targetEntry + entireUnits) (tgtEntry ||| srcEntry)

/-- A unit with its head in one entry and its tail in the next. The state has the last entry that was read. -/
def shiftUnit (source : ℕ → BitVec 64) (targetEntry sourceEntry tail : ℕ)
    (p : (ℕ → BitVec 64) × BitVec 64) (i : ℕ) : (ℕ → BitVec 64) × BitVec 64 :=
  let srcEntry := source (sourceEntry + i + 1)
  (update p.1 (targetEntry + i) (p.2 >>> tail ||| srcEntry <<< (64 - tail)), srcEntry)

/-- `SliceInPlace` if only the offset of the target is aligned. -/
def shiftUnits (target source : ℕ → BitVec 64) (targetEntry sourceOffset count : ℕ) : ℕ → BitVec 64 :=
  let ragged := count % 64
  let entireUnits := count / 64
  let tail := sourceOffset % 64
  let head := 64 - tail
  let sourceEntry := sourceOffset / 64
  let p := (range entireUnits).foldl (shiftUnit source targetEntry sourceEntry tail)
    (target, source sourceEntry)
  if ragged = 0 then p.1
  else
    let tgtEntry := p.2 >>> tail
    -- the tail of the next entry, if the head was too small
    let tgtEntry := if head < ragged then tgtEntry ||| source (sourceEntry + entireUnits + 1) <<< head else tgtEntry
    let tgtEntry := tgtEntry &&& (BitVec.allOnes 64 >>> (64 - ragged))
    update p.1 (targetEntry + entireUnits)
      (tgtEntry ||| p.1 (targetEntry + entireUnits) &&& (BitVec.allOnes 64 <<< ragged))

/-- `SliceInPlace`: nothing if entries are read of a mask that has none. -/
def sliceInPlace (m other : ValidityMask) (targetOffset sourceOffset count : ℕ) : Option ValidityMask :=
  if m.validityMask.isNone ∧ other.validityMask.isNone then some m
  else
    -- `EnsureWritable`
    let entries := m.validityMask.getD fun _ => BitVec.allOnes 64
    if sourceOffset % 64 = 0 ∧ targetOffset % 64 = 0 then
      some ⟨some (copyUnits entries other.validityMask (entryCount targetOffset) (entryCount sourceOffset) count)⟩
    else if targetOffset % 64 = 0 then
      other.validityMask.map fun source => ⟨some (shiftUnits entries source (targetOffset / 64) sourceOffset count)⟩
    else
      some ((range count).foldl
        (fun m i => m.set (targetOffset + i) (other.rowIsValid (sourceOffset + i))) ⟨some entries⟩)

/-- `Slice`: the mask of the rows from an offset on. -/
def slice (other : ValidityMask) (sourceOffset count : ℕ) : Option ValidityMask :=
  if other.validityMask.isNone then some new
  else if sourceOffset = 0 then some other
  else new.sliceInPlace other 0 sourceOffset count

/-- `CopySel`: the rows that a selection has, all of them without a selection. -/
def copySel (m other : ValidityMask) (sel : Option (ℕ → ℕ)) (sourceOffset targetOffset copyCount : ℕ) :
    Option ValidityMask :=
  if other.validityMask.isNone ∧ m.validityMask.isNone then some m
  else if sel.isNone ∧ sourceOffset % 64 = 0 ∧ targetOffset % 64 = 0 then
    m.sliceInPlace other targetOffset sourceOffset copyCount
  else
    some ((range copyCount).foldl
      (fun m i => m.set (targetOffset + i) (other.rowIsValid (sel.getD id (sourceOffset + i)))) m)

/-! ## Units -/

/-- Units written to a target, of the last one only the rows that belong to it. -/
def withUnits (target f : ℕ → BitVec 64) (targetEntry count : ℕ) : ℕ → BitVec 64 := fun i =>
  if targetEntry ≤ i ∧ i < targetEntry + count / 64 then f (i - targetEntry)
  else if i = targetEntry + count / 64 ∧ count % 64 ≠ 0 then
    target i &&& (BitVec.allOnes 64 <<< (count % 64)) |||
      f (count / 64) &&& (BitVec.allOnes 64 >>> (64 - count % 64))
  else target i

variable (target f : ℕ → BitVec 64) (targetEntry : ℕ)

/-- Whole units that have been written one after the other. -/
theorem foldl_update (n : ℕ) : (range n).foldl (fun target i => update target (targetEntry + i) (f i)) target =
      fun i => if targetEntry ≤ i ∧ i < targetEntry + n then f (i - targetEntry) else target i := by
  induction n with
  | zero =>
    funext i
    exact (if_neg fun h => absurd h.2 (Nat.not_lt.2 h.1)).symm
  | succ n ih =>
    rw [range_succ, foldl_append, ih]
    funext i
    rw [foldl_cons, foldl_nil, update_apply]
    by_cases hi : i = targetEntry + n
    · rw [if_pos hi, if_pos ⟨by omega, by omega⟩, hi, Nat.add_sub_cancel_left]
    · rw [if_neg hi]
      exact if_congr ⟨fun h => ⟨h.1, by omega⟩, fun h => ⟨h.1, by omega⟩⟩ rfl rfl

/-- Whole units have been written, and the rows behind them. -/
theorem eq_withUnits {result : ℕ → BitVec 64} {count : ℕ}
    (hunits : ∀ i, i ≠ targetEntry + count / 64 ∨ count % 64 = 0 → result i =
      if targetEntry ≤ i ∧ i < targetEntry + count / 64 then f (i - targetEntry) else target i)
    (hragged : count % 64 ≠ 0 → result (targetEntry + count / 64) =
      target (targetEntry + count / 64) &&& (BitVec.allOnes 64 <<< (count % 64)) |||
        f (count / 64) &&& (BitVec.allOnes 64 >>> (64 - count % 64))) :
    result = withUnits target f targetEntry count := by
  funext i
  rw [withUnits]
  by_cases hi : i = targetEntry + count / 64 ∧ count % 64 ≠ 0
  · obtain ⟨rfl, hmod⟩ := hi
    rw [if_neg fun h => absurd h.2 (Nat.lt_irrefl _), if_pos ⟨rfl, hmod⟩, hragged hmod]
  · rw [if_neg hi, hunits i (Decidable.or_iff_not_not_and_not.2 fun h => hi ⟨not_not.1 h.1, h.2⟩)]

variable {target f targetEntry}

/-- The rows of the units have been replaced. -/
theorem rowIsValid_withUnits (count j : ℕ) :
    (⟨some (withUnits target f targetEntry count)⟩ : ValidityMask).rowIsValid j =
      if 64 * targetEntry ≤ j ∧ j < 64 * targetEntry + count then
        (f ((j - 64 * targetEntry) / 64)).getLsbD ((j - 64 * targetEntry) % 64)
      else (⟨some target⟩ : ValidityMask).rowIsValid j := by
  have hmod : j % 64 < 64 := Nat.mod_lt j (by decide)
  change (withUnits target f targetEntry count (j / 64)).getLsbD (j % 64) =
    if _ then _ else (target (j / 64)).getLsbD (j % 64)
  rw [withUnits]
  by_cases hunit : targetEntry ≤ j / 64 ∧ j / 64 < targetEntry + count / 64
  · rw [if_pos hunit, if_pos ⟨by omega, by omega⟩]
    have hdiv : (j - 64 * targetEntry) / 64 = j / 64 - targetEntry := by omega
    have hrow : (j - 64 * targetEntry) % 64 = j % 64 := by omega
    rw [hdiv, hrow]
  · rw [if_neg hunit]
    by_cases hlst : j / 64 = targetEntry + count / 64 ∧ count % 64 ≠ 0
    · rw [if_pos hlst, BitVec.getLsbD_or, BitVec.getLsbD_and, BitVec.getLsbD_and, BitVec.getLsbD_shiftLeft,
        BitVec.getLsbD_ushiftRight, BitVec.getLsbD_allOnes, BitVec.getLsbD_allOnes, decide_eq_true hmod]
      by_cases hrow : j % 64 < count % 64
      · have hdiv : (j - 64 * targetEntry) / 64 = count / 64 := by omega
        have hmod' : (j - 64 * targetEntry) % 64 = j % 64 := by omega
        rw [if_pos ⟨by omega, by omega⟩, hdiv, hmod', decide_eq_true hrow,
          decide_eq_true (show 64 - count % 64 + j % 64 < 64 by omega)]
        simp
      · rw [if_neg fun h => absurd h.2 (by omega), decide_eq_false hrow,
          decide_eq_false (show ¬ 64 - count % 64 + j % 64 < 64 by omega),
          decide_eq_true (show j % 64 - count % 64 < 64 by omega)]
        simp
    · rw [if_neg hlst, if_neg fun h => absurd h.2 (by omega)]

/-! ## Aligned offsets -/

theorem copyUnits_eq (source : Option (ℕ → BitVec 64)) (sourceEntry count : ℕ) :
    copyUnits target source targetEntry sourceEntry count =
      withUnits target (entryFrom source sourceEntry) targetEntry count := by
  rw [copyUnits, foldl_update]
  dsimp only
  by_cases hmod : count % 64 = 0
  · rw [if_pos hmod]
    exact eq_withUnits target _ targetEntry (fun i _ => rfl) fun h => absurd hmod h
  · rw [if_neg hmod]
    refine eq_withUnits target _ targetEntry (fun i hi => ?_) fun _ => ?_
    · exact update_of_ne (hi.resolve_right hmod) _ _
    · rw [update_self, if_neg fun h => absurd h.2 (Nat.lt_irrefl _)]

theorem getLsbD_entryFrom (other : ValidityMask) (sourceEntry k : ℕ) :
    (entryFrom other.validityMask sourceEntry (k / 64)).getLsbD (k % 64) =
      other.rowIsValid (64 * sourceEntry + k) := by
  have hdiv : (64 * sourceEntry + k) / 64 = sourceEntry + k / 64 := by omega
  have hmod : (64 * sourceEntry + k) % 64 = k % 64 := by omega
  rw [rowIsValid, hdiv, hmod]
  obtain ⟨_ | entries⟩ := other
  · rfl
  · rfl

/-! ## Shifted entries -/

/-- The unit `i` of a source from `sourceOffset` on. -/
def shiftedUnit (source : ℕ → BitVec 64) (sourceOffset i : ℕ) : BitVec 64 :=
  source (sourceOffset / 64 + i) >>> (sourceOffset % 64) |||
    source (sourceOffset / 64 + i + 1) <<< (64 - sourceOffset % 64)

/-- The entry that has been read is the one with the head of the next unit. -/
theorem foldl_shiftUnit (source : ℕ → BitVec 64) (sourceOffset n : ℕ) :
    (range n).foldl (shiftUnit source targetEntry (sourceOffset / 64) (sourceOffset % 64))
        (target, source (sourceOffset / 64)) =
      ((range n).foldl (fun target i =>
          update target (targetEntry + i) (shiftedUnit source sourceOffset i)) target,
        source (sourceOffset / 64 + n)) := by
  induction n with
  | zero => rfl
  | succ n ih =>
    rw [range_succ, foldl_append, foldl_append, ih]
    rfl

/-- A row of a unit is in the head of one entry or in the tail of the next one. -/
theorem getLsbD_shiftedUnit (source : ℕ → BitVec 64) {sourceOffset : ℕ} (k : ℕ) :
    (shiftedUnit source sourceOffset (k / 64)).getLsbD (k % 64) =
      (⟨some source⟩ : ValidityMask).rowIsValid (sourceOffset + k) := by
  have hmod : k % 64 < 64 := Nat.mod_lt k (by decide)
  change _ = (source ((sourceOffset + k) / 64)).getLsbD ((sourceOffset + k) % 64)
  rw [shiftedUnit, BitVec.getLsbD_or, BitVec.getLsbD_ushiftRight, BitVec.getLsbD_shiftLeft, decide_eq_true hmod,
    Bool.true_and]
  by_cases hhead : sourceOffset % 64 + k % 64 < 64
  · have hdiv : (sourceOffset + k) / 64 = sourceOffset / 64 + k / 64 := by omega
    have hrow : (sourceOffset + k) % 64 = sourceOffset % 64 + k % 64 := by omega
    rw [hdiv, hrow, decide_eq_true (show k % 64 < 64 - sourceOffset % 64 by omega), Bool.not_true,
      Bool.false_and, Bool.or_false]
  · have hdiv : (sourceOffset + k) / 64 = sourceOffset / 64 + k / 64 + 1 := by omega
    have hrow : (sourceOffset + k) % 64 = k % 64 - (64 - sourceOffset % 64) := by omega
    rw [hdiv, hrow, BitVec.getLsbD_of_ge _ _ (not_lt.1 hhead), Bool.false_or,
      decide_eq_false (show ¬ k % 64 < 64 - sourceOffset % 64 by omega), Bool.not_false, Bool.true_and]

theorem shiftUnits_eq (source : ℕ → BitVec 64) (sourceOffset count : ℕ) :
    shiftUnits target source targetEntry sourceOffset count =
      withUnits target (shiftedUnit source sourceOffset) targetEntry count := by
  rw [shiftUnits, foldl_shiftUnit, foldl_update]
  dsimp only
  by_cases hmod : count % 64 = 0
  · rw [if_pos hmod]
    exact eq_withUnits target _ targetEntry (fun i _ => rfl) fun h => absurd hmod h
  · rw [if_neg hmod]
    refine eq_withUnits target _ targetEntry (fun i hi => ?_) fun _ => ?_
    · exact update_of_ne (hi.resolve_right hmod) _ _
    · have hself : ¬ (targetEntry ≤ targetEntry + count / 64 ∧
          targetEntry + count / 64 < targetEntry + count / 64) := fun h => absurd h.2 (Nat.lt_irrefl _)
      rw [update_self, if_neg hself, BitVec.or_comm]
      refine congrArg _ (BitVec.eq_of_getLsbD_eq fun i hi => ?_)
      -- the tail of the next entry has no row of the last unit if it has not been read
      rw [BitVec.getLsbD_and, BitVec.getLsbD_and, BitVec.getLsbD_ushiftRight, BitVec.getLsbD_allOnes]
      by_cases hrow : 64 - count % 64 + i < 64
      · rw [decide_eq_true hrow, Bool.and_true, Bool.and_true, shiftedUnit]
        by_cases hhead : 64 - sourceOffset % 64 < count % 64
        · rw [if_pos hhead]
        · rw [if_neg hhead, BitVec.getLsbD_or, BitVec.getLsbD_shiftLeft,
            decide_eq_true (show i < 64 - sourceOffset % 64 by omega), Bool.not_true, Bool.and_false,
            Bool.false_and, Bool.or_false]
      · rw [decide_eq_false hrow, Bool.and_false, Bool.and_false]

/-! ## Results -/

variable (m other : ValidityMask) (targetOffset sourceOffset count : ℕ)

/-- The rows of one mask have been copied to the other mask. -/
def HasSlice (m' : ValidityMask) : Prop := ∀ j, m'.rowIsValid j = if targetOffset ≤ j ∧ j < targetOffset + count then
    other.rowIsValid (sourceOffset + (j - targetOffset)) else m.rowIsValid j

/-- The rows are copied and nothing else changes; no entries of a mask without entries are read. -/
def Slices : Prop := ∃ m', sliceInPlace m other targetOffset sourceOffset count = some m' ∧
    HasSlice m other targetOffset sourceOffset count m'

variable {m other targetOffset sourceOffset count}

theorem rowIsValid_foldl_range (g : ℕ → Bool) (m : ValidityMask) (n j : ℕ) :
    ((range n).foldl (fun m i => m.set (targetOffset + i) (g i)) m).rowIsValid j =
      if targetOffset ≤ j ∧ j < targetOffset + n then g (j - targetOffset) else m.rowIsValid j := by
  induction n with
  | zero => exact (if_neg fun h => absurd h.2 (Nat.not_lt.2 h.1)).symm
  | succ n ih =>
    rw [range_succ, foldl_append, foldl_cons, foldl_nil, rowIsValid_set, ih]
    by_cases hj : j = targetOffset + n
    · rw [if_pos hj, if_pos ⟨by omega, by omega⟩, hj, Nat.add_sub_cancel_left]
    · rw [if_neg hj]
      exact if_congr ⟨fun h => ⟨h.1, by omega⟩, fun h => ⟨h.1, by omega⟩⟩ rfl rfl

/-- A mask that has been made writable has the same rows. -/
theorem rowIsValid_ensureWritable (m : ValidityMask) :
    (⟨some (m.validityMask.getD fun _ => BitVec.allOnes 64)⟩ : ValidityMask).rowIsValid = m.rowIsValid := by
  obtain ⟨_ | entries⟩ := m
  · rfl
  · rfl

theorem hasSlice_withUnits {f : ℕ → BitVec 64} (htgt : targetOffset = 64 * targetEntry)
    (hf : ∀ k, (f (k / 64)).getLsbD (k % 64) = other.rowIsValid (sourceOffset + k)) :
    HasSlice m other targetOffset sourceOffset count
      ⟨some (withUnits (m.validityMask.getD fun _ => BitVec.allOnes 64) f targetEntry count)⟩ := by
  intro j
  rw [rowIsValid_withUnits, hf, rowIsValid_ensureWritable, htgt]

theorem hasSlice_none (hm : m.validityMask = none) (hoth : other.validityMask = none) :
    HasSlice m other targetOffset sourceOffset count m := by
  intro j
  rw [rowIsValid_of_none hm, rowIsValid_of_none hoth, ite_self]

/-- A slice is right, unless shifted entries are needed of a mask that has none for a mask that has
    entries. -/
theorem slices_of_ne (h : ¬ (m.validityMask.isSome ∧ other.validityMask.isNone ∧ targetOffset % 64 = 0 ∧
    sourceOffset % 64 ≠ 0)) : Slices m other targetOffset sourceOffset count := by
  rw [Slices, sliceInPlace]
  by_cases hno : m.validityMask.isNone ∧ other.validityMask.isNone
  · rw [if_pos hno]
    exact ⟨m, rfl, hasSlice_none (isNone_iff_eq_none.1 hno.1) (isNone_iff_eq_none.1 hno.2)⟩
  rw [if_neg hno]
  by_cases halig : sourceOffset % 64 = 0 ∧ targetOffset % 64 = 0
  · rw [if_pos halig, copyUnits_eq]
    refine ⟨_, rfl, hasSlice_withUnits ?_ fun k => ?_⟩
    · rw [entryCount]
      omega
    · rw [getLsbD_entryFrom]
      refine congrArg _ (congrArg (· + k) ?_)
      rw [entryCount]
      omega
  rw [if_neg halig]
  by_cases htgt : targetOffset % 64 = 0
  · rw [if_pos htgt]
    -- entries are shifted
    have hsrc : sourceOffset % 64 ≠ 0 := fun hsrc => halig ⟨hsrc, htgt⟩
    obtain ⟨_ | source⟩ := other
    · rcases hm : m.validityMask with _ | entries
      · exact absurd ⟨hm ▸ rfl, rfl⟩ hno
      · exact absurd ⟨hm ▸ rfl, rfl, htgt, hsrc⟩ h
    · refine ⟨_, congrArg some (congrArg mk (congrArg some (shiftUnits_eq _ _ _))), hasSlice_withUnits ?_ fun k => ?_⟩
      · omega
      · exact getLsbD_shiftedUnit source k
  · rw [if_neg htgt]
    refine ⟨_, rfl, fun j => ?_⟩
    rw [rowIsValid_foldl_range fun i => other.rowIsValid (sourceOffset + i), rowIsValid_ensureWritable]

variable (m other) in
theorem slice_spec (sourceOffset count : ℕ) : ∃ m', slice other sourceOffset count = some m' ∧
    ∀ j < count, m'.rowIsValid j = other.rowIsValid (sourceOffset + j) := by
  rw [slice]
  rcases hoth : other.validityMask with _ | source
  · refine ⟨new, rfl, fun j _ => ?_⟩
    rw [rowIsValid_of_none hoth, rowIsValid_new]
  · dsimp only [isNone_some]
    rw [if_neg Bool.false_ne_true]
    by_cases hz : sourceOffset = 0
    · rw [if_pos hz, hz]
      exact ⟨other, rfl, fun j _ => by rw [Nat.zero_add]⟩
    · rw [if_neg hz]
      obtain ⟨m', hm', hslice⟩ : Slices new other 0 sourceOffset count :=
        slices_of_ne fun h => Bool.false_ne_true h.1
      refine ⟨m', hm', fun j hj => ?_⟩
      rw [hslice j, if_pos ⟨Nat.zero_le j, (Nat.zero_add count).symm ▸ hj⟩, Nat.sub_zero]

variable (m other) in
/-- `CopySel` copies the rows of the selection. -/
theorem copySel_spec (sel : Option (ℕ → ℕ)) (sourceOffset targetOffset copyCount : ℕ) :
    ∃ m', copySel m other sel sourceOffset targetOffset copyCount = some m' ∧
      ∀ j, m'.rowIsValid j = if targetOffset ≤ j ∧ j < targetOffset + copyCount then
        other.rowIsValid (sel.getD id (sourceOffset + (j - targetOffset))) else m.rowIsValid j := by
  rw [copySel]
  by_cases hno : other.validityMask.isNone ∧ m.validityMask.isNone
  · rw [if_pos hno]
    refine ⟨m, rfl, fun j => ?_⟩
    rw [rowIsValid_of_none (isNone_iff_eq_none.1 hno.1), rowIsValid_of_none (isNone_iff_eq_none.1 hno.2), ite_self]
  rw [if_neg hno]
  by_cases hflat : sel.isNone ∧ sourceOffset % 64 = 0 ∧ targetOffset % 64 = 0
  · rw [if_pos hflat, isNone_iff_eq_none.1 hflat.1]
    exact slices_of_ne fun h => h.2.2.2 hflat.2.1
  · rw [if_neg hflat]
    exact ⟨_, rfl, fun j => rowIsValid_foldl_range (fun i => other.rowIsValid _) m copyCount j⟩

variable (m other targetOffset sourceOffset count)

/-- A slice is right if and only if a mask that has entries is not shifted into one that has none. -/
theorem slices_iff : Slices m other targetOffset sourceOffset count ↔
    ¬ (m.validityMask.isSome ∧ other.validityMask.isNone ∧ targetOffset % 64 = 0 ∧ sourceOffset % 64 ≠ 0) := by
  refine ⟨fun ⟨m', hm', _⟩ ⟨hm, hoth, htgt, hsrc⟩ => ?_, slices_of_ne⟩
  have hents : ¬ (m.validityMask.isNone ∧ other.validityMask.isNone) :=
    fun h => isSome_iff_ne_none.1 hm (isNone_iff_eq_none.1 h.1)
  rw [sliceInPlace, if_neg hents, if_neg fun h => hsrc h.1, if_pos htgt, isNone_iff_eq_none.1 hoth] at hm'
  exact absurd hm' (some_ne_none m').symm

/-- A row behind the first one of a mask without entries is copied to a mask with entries. -/
theorem not_slices : ¬ Slices initialized new 0 1 1 := by
  rintro ⟨m', hm', -⟩
  exact absurd hm' (some_ne_none m').symm

end ValidityMask

end WfOpt

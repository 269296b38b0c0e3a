import WfOpt.Storage.Compression.BitpackingPrimitives

/-!
# Groups of a bitpacked column

The rows of a column are packed in groups of 2048. A group of one value, or of values with one difference, stores
what it is made of; in the others the distance of each value or difference to the least one is packed.

A state gathers the rows of a group and hands the group over to a writer when it is full
(`BitpackingState.update`). The group has the values of its rows (`PackedGroup.value`), whichever mode it is in
(`Gathers.flush`). Differences are taken modulo the size of the type; only what is packed must fit the width.
-/

namespace WfOpt

open List Option

/-- `BITPACKING_METADATA_GROUP_SIZE` -/
abbrev bitpackingMetadataGroupSize : ℕ := 2048

/-- `BitpackingMode` -/
inductive BitpackingMode
  | invalid | auto | constant | constantDelta | deltaFor | for_
  deriving DecidableEq

/-! ## Groups -/

/-- The arguments of `WriteConstant`, `WriteConstantDelta`, `WriteDeltaFor` and `WriteFor`. -/
inductive PackedGroup (T : IntegralType)
  | constant (constant : T.Value) (count : ℕ)
  | constantDelta (constant frameOfReference : T.Value) (count : ℕ)
  | deltaFor (values : ℕ → T.Value) (width : ℕ) (frameOfReference deltaOffset : T.Value) (count : ℕ)
  | for_ (values : ℕ → T.Value) (width : ℕ) (frameOfReference : T.Value) (count : ℕ)

namespace PackedGroup

variable {T : IntegralType}

/-- The rows of the group. -/
def count : PackedGroup T → ℕ
  | constant _ count => count
  | constantDelta _ _ count => count
  | deltaFor _ _ _ _ count => count
  | for_ _ _ _ count => count

/-- The bits with which the values are packed. -/
def width : PackedGroup T → ℕ
  | constant _ _ => 0
  | constantDelta _ _ _ => 0
  | deltaFor _ width _ _ _ => width
  | for_ _ width _ _ => width

/-- The lower bits of a value. -/
def lowerBits (width : ℕ) (x : T.Value) : T.Value := BitVec.ofNat T.bits (x.toNat % 2 ^ width)

/-- The value of a row of the group. -/
def value : PackedGroup T → ℕ → T.Value
  | constant c _, _ => c
  | constantDelta c frame _, i => c * BitVec.ofNat T.bits i + frame
  | deltaFor values width frame deltaOffset _, i =>
    deltaOffset + ∑ j ∈ Finset.range (i + 1), (lowerBits width (values j) + frame)
  | for_ values width frame _, i => lowerBits width (values i) + frame

theorem lowerBits_of_lt {width : ℕ} {x : T.Value} (h : x.toNat < 2 ^ width) : lowerBits width x = x := by
  rw [lowerBits, Nat.mod_eq_of_lt h, BitVec.ofNat_toNat, BitVec.setWidth_eq]

/-- The group has the values of the rows that have some. -/
structure Packs (g : PackedGroup T) (rows : List (Option T.Value)) : Prop where
  count_eq : g.count = rows.length
  value_eq : ∀ i v, rows[i]? = some (some v) → g.value i = v
  width_le : g.width ≤ T.bits
  /-- Values without a sign that grow or shrink are not more than there are positive ones with a sign. -/
  count_le : ∀ c frame n, g = constantDelta c frame n → T.isSigned = false → c ≠ 0 → n ≤ 2 ^ (T.bits - 1)

end PackedGroup

/-! ## Rows of a group -/

/-- `BitpackingState` -/
structure BitpackingState (T : IntegralType) where
  compressionBuffer : ℕ → T.Value
  deltaBuffer : ℕ → T.Value
  compressionBufferIdx : ℕ
  minimum : T.Value
  maximum : T.Value
  minMaxDiff : T.Value
  minimumDelta : T.Value
  maximumDelta : T.Value
  minMaxDeltaDiff : T.Value
  deltaOffset : T.Value
  allValid : Bool
  allInvalid : Bool
  canDoDelta : Bool
  canDoFor : Bool
  mode : BitpackingMode

namespace BitpackingState

variable {T : IntegralType}

/-- `Reset` -/
def reset (s : BitpackingState T) : BitpackingState T where
  compressionBuffer := s.compressionBuffer
  deltaBuffer := s.deltaBuffer
  compressionBufferIdx := 0
  minimum := numericMaximum T.bits T.isSigned
  maximum := numericMinimum T.bits T.isSigned
  minMaxDiff := 0
  minimumDelta := numericMaximum T.bits true
  maximumDelta := numericMinimum T.bits true
  minMaxDeltaDiff := 0
  deltaOffset := 0
  allValid := true
  allInvalid := true
  canDoDelta := false
  canDoFor := false
  mode := s.mode

/-- The constructor: the buffers have whatever was there before. -/
def new (compressionBuffer deltaBuffer : ℕ → T.Value) (mode : BitpackingMode) : BitpackingState T :=
  reset ⟨compressionBuffer, deltaBuffer, 0, 0, 0, 0, 0, 0, 0, 0, true, true, false, false, mode⟩

/-- `CalculateFORStats`: without success, the difference is not used. -/
def calculateFORStats (s : BitpackingState T) : BitpackingState T :=
  match trySubtractOperator T.isSigned s.maximum s.minimum with
  | some diff => { s with minMaxDiff := diff, canDoFor := true }
  | none => { s with canDoFor := false }

/-- `compression_buffer[i - 1]`; there is a zero in front of the values. -/
def previous (s : BitpackingState T) (i : ℕ) : T.Value := if i = 0 then 0 else s.compressionBuffer (i - 1)

/-- Whether all differences can be taken without overflows, or each of them can. -/
def canDoDeltas (s : BitpackingState T) : Bool := (if T.isSigned then
      (trySubtractOperator true s.minimum s.maximum).isSome && (trySubtractOperator true s.maximum s.minimum).isSome
    else true) ||
    (List.range s.compressionBufferIdx).all fun i =>
      (trySubtractOperator true (s.compressionBuffer i) (s.previous i)).isSome

/-- `delta_buffer` with the differences of the values. -/
def differences (s : BitpackingState T) (i : ℕ) : T.Value :=
  if i < s.compressionBufferIdx then s.compressionBuffer i - s.previous i else s.deltaBuffer i

/-- The least and the greatest difference behind the first value. -/
def calculateDeltaBounds (s : BitpackingState T) : BitpackingState T :=
  (List.range (s.compressionBufferIdx - 1)).foldl
    (fun s i => { s with
      maximumDelta := maxValue true s.maximumDelta (s.deltaBuffer (i + 1))
      minimumDelta := minValue true s.minimumDelta (s.deltaBuffer (i + 1)) }) s

/-- `CalculateDeltaStats`. If a difference overflows, what was written to `delta_buffer` is not used. -/
def calculateDeltaStats (s : BitpackingState T) : BitpackingState T :=
  if numericValue T.isSigned (numericMaximum T.bits true) < numericValue T.isSigned s.maximum then s
  else if s.compressionBufferIdx < 2 then s
  else if !s.allValid then s
  else if !s.canDoDeltas then s
  else
    let s := calculateDeltaBounds { s with deltaBuffer := s.differences, canDoDelta := true }
    -- the first value is arbitrary, so it is one of the differences
    let s := { s with deltaBuffer := Function.update s.deltaBuffer 0 s.minimumDelta }
    match trySubtractOperator true s.maximumDelta s.minimumDelta with
    | none => { s with canDoDelta := false }
    | some diff =>
      match trySubtractOperator true (s.compressionBuffer 0) s.minimumDelta with
      | none => { s with minMaxDeltaDiff := diff, canDoDelta := false }
      | some offset => { s with minMaxDeltaDiff := diff, deltaOffset := offset }

/-- `SubtractFrameOfReference` -/
def subtractFrameOfReference (buffer : ℕ → T.Value) (n : ℕ) (frameOfReference : T.Value) : ℕ → T.Value :=
  fun i => if i < n then buffer i - frameOfReference else buffer i

/-- `prefer_for`: the differences do not need less bits than the values. -/
def preferFor (s : BitpackingState T) : Bool :=
  s.canDoFor && decide (minimumBitWidth T T.isSigned s.minMaxDiff ≤ minimumBitWidth T false s.minMaxDeltaDiff)

/-- `Flush`, with the group that is handed over to the writer. -/
def flush (s : BitpackingState T) : BitpackingState T × Option (PackedGroup T) × Bool :=
  if s.compressionBufferIdx = 0 then (s, none, true)
  else if (s.allInvalid || s.maximum == s.minimum) && (s.mode == .auto || s.mode == .constant) then
    (s, some (.constant s.maximum s.compressionBufferIdx), true)
  else
    let s := s.calculateFORStats.calculateDeltaStats
    if s.canDoDelta && s.maximumDelta == s.minimumDelta && s.mode != .for_ && s.mode != .deltaFor then
      (s, some (.constantDelta s.maximumDelta (s.compressionBuffer 0) s.compressionBufferIdx), true)
    else if s.canDoDelta && !s.preferFor && s.mode != .for_ then
      let deltaBuffer := subtractFrameOfReference s.deltaBuffer s.compressionBufferIdx s.minimumDelta
      ({ s with deltaBuffer := deltaBuffer },
        some (.deltaFor deltaBuffer (minimumBitWidth T false s.minMaxDeltaDiff) s.minimumDelta s.deltaOffset
          s.compressionBufferIdx), true)
    else if s.canDoFor then
      let buffer := subtractFrameOfReference s.compressionBuffer s.compressionBufferIdx s.minimum
      ({ s with compressionBuffer := buffer },
        some (.for_ buffer (minimumBitWidth T false s.minMaxDiff) s.minimum s.compressionBufferIdx), true)
    else (s, none, false)

/-- `Update` by a row, up to the check whether the group is full. -/
def updateRow (s : BitpackingState T) (row : Option T.Value) : BitpackingState T :=
  let s := { s with allValid := s.allValid && row.isSome, allInvalid := s.allInvalid && !row.isSome }
  let s := match row with
    | some value => { s with
        compressionBuffer := Function.update s.compressionBuffer s.compressionBufferIdx value
        minimum := minValue T.isSigned s.minimum value
        maximum := maxValue T.isSigned s.maximum value }
    | none => s
  { s with compressionBufferIdx := s.compressionBufferIdx + 1 }

/-- `Flush`, where the group is written by `op`, and whether it has been successful. -/
def flushTo {σ : Type*} (op : PackedGroup T → σ → σ) (s : BitpackingState T) (w : σ) :
    BitpackingState T × σ × Bool :=
  let (s, group, success) := s.flush
  (s, group.elim w fun g => op g w, success)

/-- `Update` -/
def update {σ : Type*} (op : PackedGroup T → σ → σ) (s : BitpackingState T) (w : σ) (row : Option T.Value) :
    BitpackingState T × σ × Bool :=
  let s := s.updateRow row
  if s.compressionBufferIdx = bitpackingMetadataGroupSize then
    let (s, w, success) := s.flushTo op w
    (s.reset, w, success)
  else (s, w, true)

/-! ### Groups that are handed over -/

/-- The state has gathered the rows of a group. -/
structure Gathers (s : BitpackingState T) (rows : List (Option T.Value)) : Prop where
  idx_eq : s.compressionBufferIdx = rows.length
  buffer_eq : ∀ i v, rows[i]? = some (some v) → s.compressionBuffer i = v
  minimum_le : ∀ v, some v ∈ rows → numericValue T.isSigned s.minimum ≤ numericValue T.isSigned v
  le_maximum : ∀ v, some v ∈ rows → numericValue T.isSigned v ≤ numericValue T.isSigned s.maximum
  allValid_eq : s.allValid = rows.all Option.isSome
  allInvalid_eq : s.allInvalid = rows.all fun row => !row.isSome

theorem gathers_reset (s : BitpackingState T) : s.reset.Gathers [] where
  idx_eq := rfl
  buffer_eq _ _ h := nomatch h
  minimum_le _ h := absurd h not_mem_nil
  le_maximum _ h := absurd h not_mem_nil
  allValid_eq := rfl
  allInvalid_eq := rfl

theorem Gathers.updateRow {s : BitpackingState T} {rows : List (Option T.Value)} (h : s.Gathers rows)
    (row : Option T.Value) : (s.updateRow row).Gathers (rows ++ [row]) := by
  have hall : ∀ p : Option T.Value → Bool, (rows ++ [row]).all p = (rows.all p && p row) := fun p => by
    rw [all_append, all_cons, all_nil, Bool.and_true]
  have hlen : (rows ++ [row]).length = rows.length + 1 := length_append
  cases row with
  | none =>
    refine ⟨?_, ?_, ?_, ?_, ?_, ?_⟩
    · rw [hlen, ← h.idx_eq]
      rfl
    · intro i v hv
      refine h.buffer_eq i v ?_
      rw [List.getElem?_append] at hv
      split at hv
      case isTrue hlt => exact hv
      case isFalse hge =>
        rw [List.getElem?_singleton] at hv
        split at hv <;> exact nomatch hv
    · intro v hv
      refine h.minimum_le v ((mem_append.1 hv).resolve_right fun hmem => ?_)
      exact nomatch mem_singleton.1 hmem
    · intro v hv
      refine h.le_maximum v ((mem_append.1 hv).resolve_right fun hmem => ?_)
      exact nomatch mem_singleton.1 hmem
    · rw [hall, ← h.allValid_eq]
      rfl
    · rw [hall, ← h.allInvalid_eq]
      rfl
  | some value =>
    have hmin : (s.updateRow (some value)).minimum = minValue T.isSigned s.minimum value := rfl
    have hmax : (s.updateRow (some value)).maximum = maxValue T.isSigned s.maximum value := rfl
    refine ⟨?_, ?_, ?_, ?_, ?_, ?_⟩
    · rw [hlen, ← h.idx_eq]
      rfl
    · intro i v hv
      change Function.update s.compressionBuffer s.compressionBufferIdx value i = v
      rw [h.idx_eq]
      rcases eq_or_ne i rows.length with rfl | hne
      · rw [List.getElem?_concat_length] at hv
        rw [Function.update_self]
        exact some.inj (some.inj hv)
      · rw [Function.update_of_ne hne]
        refine h.buffer_eq i v ?_
        rw [List.getElem?_append] at hv
        split at hv
        case isTrue hlt => exact hv
        case isFalse hge =>
          rw [List.getElem?_singleton, if_neg (by omega)] at hv
          exact nomatch hv
    · intro v hv
      obtain ⟨hlft, hrt⟩ := minValue_le T.isSigned s.minimum value
      rcases mem_append.1 hv with hmem | hmem
      · exact hlft.trans (h.minimum_le v hmem)
      · rwa [some.inj (mem_singleton.1 hmem)]
    · intro v hv
      obtain ⟨hlft, hrt⟩ := le_maxValue T.isSigned s.maximum value
      rcases mem_append.1 hv with hmem | hmem
      · exact (h.le_maximum v hmem).trans hlft
      · rwa [some.inj (mem_singleton.1 hmem)]
    · rw [hall, ← h.allValid_eq]
      rfl
    · rw [hall, ← h.allInvalid_eq]
      rfl

/-! ### Differences -/

/-- All differences of a prefix are between the least and the greatest one of it. -/
theorem calculateDeltaBounds_spec (s : BitpackingState T) : (∃ maximumDelta minimumDelta, s.calculateDeltaBounds =
      { s with maximumDelta := maximumDelta, minimumDelta := minimumDelta }) ∧
    ∀ i, i + 1 < s.compressionBufferIdx →
      numericValue true s.calculateDeltaBounds.minimumDelta ≤ numericValue true (s.deltaBuffer (i + 1)) ∧
        numericValue true (s.deltaBuffer (i + 1)) ≤ numericValue true s.calculateDeltaBounds.maximumDelta := by
  have hloop : ∀ n, ∃ maximumDelta minimumDelta, (range n).foldl (fun s i => { s with
        maximumDelta := maxValue true s.maximumDelta (s.deltaBuffer (i + 1))
        minimumDelta := minValue true s.minimumDelta (s.deltaBuffer (i + 1)) }) s =
          { s with maximumDelta := maximumDelta, minimumDelta := minimumDelta } ∧
      ∀ i < n, numericValue true minimumDelta ≤ numericValue true (s.deltaBuffer (i + 1)) ∧
        numericValue true (s.deltaBuffer (i + 1)) ≤ numericValue true maximumDelta := by
    intro n
    induction n with
    | zero => exact ⟨_, _, rfl, fun i hi => absurd hi (Nat.not_lt_zero i)⟩
    | succ n ih =>
      obtain ⟨maximumDelta, minimumDelta, heq, hbds⟩ := ih
      obtain ⟨hlft, hrt⟩ := minValue_le true minimumDelta (s.deltaBuffer (n + 1))
      obtain ⟨hlft', hrt'⟩ := le_maxValue true maximumDelta (s.deltaBuffer (n + 1))
      refine ⟨_, _, by rw [range_succ, foldl_append, heq, foldl_cons, foldl_nil], ?_⟩
      intro i hi
      rcases Nat.lt_succ_iff_lt_or_eq.1 hi with hlt | rfl
      · exact ⟨hlft.trans (hbds i hlt).1, (hbds i hlt).2.trans hlft'⟩
      · exact ⟨hrt, hrt'⟩
  obtain ⟨maximumDelta, minimumDelta, heq, hbds⟩ := hloop (s.compressionBufferIdx - 1)
  rw [← calculateDeltaBounds] at heq
  rw [heq]
  exact ⟨⟨_, _, rfl⟩, fun i hi => hbds i (by omega)⟩

/-- What the statistics of the differences are when they can be packed. -/
structure HasDeltas (s : BitpackingState T) : Prop where
  two_le : 2 ≤ s.compressionBufferIdx
  allValid : s.allValid = true
  maximum_le : numericValue T.isSigned s.maximum ≤ numericValue T.isSigned (numericMaximum T.bits true)
  deltaBuffer_zero : s.deltaBuffer 0 = s.minimumDelta
  deltaBuffer_succ : ∀ i, i + 1 < s.compressionBufferIdx →
    s.deltaBuffer (i + 1) = s.compressionBuffer (i + 1) - s.compressionBuffer i
  minimumDelta_le : ∀ i, i + 1 < s.compressionBufferIdx →
    numericValue true s.minimumDelta ≤ numericValue true (s.deltaBuffer (i + 1))
  le_maximumDelta : ∀ i, i + 1 < s.compressionBufferIdx →
    numericValue true (s.deltaBuffer (i + 1)) ≤ numericValue true s.maximumDelta
  diff_eq : trySubtractOperator true s.maximumDelta s.minimumDelta = some s.minMaxDeltaDiff
  offset_eq : s.deltaOffset = s.compressionBuffer 0 - s.minimumDelta

/-- The rows are as before. -/
structure SameRows (s s' : BitpackingState T) : Prop where
  buffer_eq : s'.compressionBuffer = s.compressionBuffer
  idx_eq : s'.compressionBufferIdx = s.compressionBufferIdx
  minimum_eq : s'.minimum = s.minimum
  maximum_eq : s'.maximum = s.maximum
  minMaxDiff_eq : s'.minMaxDiff = s.minMaxDiff
  allValid_eq : s'.allValid = s.allValid
  allInvalid_eq : s'.allInvalid = s.allInvalid
  canDoFor_eq : s'.canDoFor = s.canDoFor
  mode_eq : s'.mode = s.mode

theorem sameRows_refl (s : BitpackingState T) : s.SameRows s := ⟨rfl, rfl, rfl, rfl, rfl, rfl, rfl, rfl, rfl⟩

theorem Gathers.congr {s s' : BitpackingState T} {rows : List (Option T.Value)} (h : s.Gathers rows)
    (hsm : s.SameRows s') : s'.Gathers rows where
  idx_eq := hsm.idx_eq.trans h.idx_eq
  buffer_eq := by
    rw [hsm.buffer_eq]
    exact h.buffer_eq
  minimum_le := by
    rw [hsm.minimum_eq]
    exact h.minimum_le
  le_maximum := by
    rw [hsm.maximum_eq]
    exact h.le_maximum
  allValid_eq := hsm.allValid_eq.trans h.allValid_eq
  allInvalid_eq := hsm.allInvalid_eq.trans h.allInvalid_eq

theorem calculateDeltaStats_spec (s : BitpackingState T) (hcan : s.canDoDelta = false) :
    s.SameRows s.calculateDeltaStats ∧ (s.calculateDeltaStats.canDoDelta = true → s.calculateDeltaStats.HasDeltas) := by
  have hsm : s.SameRows s ∧ (s.canDoDelta = true → s.HasDeltas) :=
    ⟨s.sameRows_refl, fun h => absurd h (by rw [hcan]; exact Bool.false_ne_true)⟩
  rw [calculateDeltaStats]
  split
  case isTrue => exact hsm
  case isFalse hmx =>
  split
  case isTrue => exact hsm
  case isFalse htwo =>
  split
  case isTrue => exact hsm
  case isFalse hvld =>
  split
  case isTrue => exact hsm
  obtain ⟨⟨maximumDelta, minimumDelta, heq⟩, hbds⟩ :=
    calculateDeltaBounds_spec { s with deltaBuffer := s.differences, canDoDelta := true }
  rw [heq] at hbds ⊢
  dsimp only at hbds ⊢
  split
  case h_1 => exact ⟨⟨rfl, rfl, rfl, rfl, rfl, rfl, rfl, rfl, rfl⟩, fun h => nomatch h⟩
  case h_2 diff hdiff =>
  split
  case h_1 => exact ⟨⟨rfl, rfl, rfl, rfl, rfl, rfl, rfl, rfl, rfl⟩, fun h => nomatch h⟩
  case h_2 offset hoff =>
  have hne : ∀ i, (Function.update s.differences 0 minimumDelta) (i + 1) = s.differences (i + 1) := fun i =>
    Function.update_of_ne (Nat.succ_ne_zero i) _ _
  refine ⟨⟨rfl, rfl, rfl, rfl, rfl, rfl, rfl, rfl, rfl⟩, fun _ => ?_⟩
  refine ⟨not_lt.1 htwo, by simpa using hvld, not_lt.1 hmx, ?_, ?_, ?_, ?_, hdiff,
    (trySubtractOperator_eq_some T.bits_pos hoff).1⟩
  · exact Function.update_self 0 minimumDelta s.differences
  · intro i hi
    dsimp only at hi ⊢
    rw [hne, differences, if_pos hi, previous, if_neg (Nat.succ_ne_zero i), Nat.add_sub_cancel]
  · intro i hi
    dsimp only at hi ⊢
    exact (hbds i hi).1
  · intro i hi
    dsimp only at hi ⊢
    exact (hbds i hi).2

theorem calculateFORStats_spec (s : BitpackingState T) : ∃ diff canDoFor,
    s.calculateFORStats = { s with minMaxDiff := diff, canDoFor := canDoFor } ∧
      (canDoFor = true → trySubtractOperator T.isSigned s.maximum s.minimum = some diff) := by
  rw [calculateFORStats]
  split
  case h_1 diff hdiff => exact ⟨_, _, rfl, fun _ => hdiff⟩
  case h_2 => exact ⟨_, _, rfl, fun h => nomatch h⟩

/-! ### Groups that are handed over -/

section Decodes

open PackedGroup (lowerBits lowerBits_of_lt)

variable {s : BitpackingState T} {rows : List (Option T.Value)} {diff : T.Value}

theorem Gathers.packs_constant (h : s.Gathers rows) (hone : s.allInvalid = true ∨ s.maximum = s.minimum) :
    (PackedGroup.constant s.maximum s.compressionBufferIdx).Packs rows where
  count_eq := h.idx_eq
  value_eq i v hv := by
    have hmem : some v ∈ rows := mem_of_getElem? hv
    rcases hone with hall | heq
    · rw [h.allInvalid_eq] at hall
      exact absurd (List.all_eq_true.1 hall _ hmem) (by simp)
    · have hmin := h.minimum_le v hmem
      rw [← heq] at hmin
      exact numericValue_inj.1 (le_antisymm hmin (h.le_maximum v hmem))
  width_le := Nat.zero_le _
  count_le _ _ _ h := nomatch h

/-- The distances of the values to the least one fit the width. -/
theorem Gathers.packs_for (h : s.Gathers rows)
    (hdiff : trySubtractOperator T.isSigned s.maximum s.minimum = some diff) :
    (PackedGroup.for_ (subtractFrameOfReference s.compressionBuffer s.compressionBufferIdx s.minimum)
      (minimumBitWidth T false diff) s.minimum s.compressionBufferIdx).Packs rows where
  count_eq := h.idx_eq
  value_eq i v hv := by
    have hmem : some v ∈ rows := mem_of_getElem? hv
    have hlt : i < s.compressionBufferIdx := h.idx_eq ▸ (List.getElem?_eq_some_iff.1 hv).1
    have hle := toNat_sub_le T.bits_pos hdiff (h.minimum_le v hmem) (h.le_maximum v hmem)
    rw [PackedGroup.value, subtractFrameOfReference, if_pos hlt, h.buffer_eq i v hv,
      lowerBits_of_lt (hle.trans_lt (lt_two_pow_minimumBitWidth diff)), BitVec.sub_add_cancel]
  width_le := minimumBitWidth_le diff
  count_le _ _ _ h := nomatch h

/-- Without NULLs, each value is the one of its row. -/
theorem Gathers.buffer_of_allValid (h : s.Gathers rows) (hvld : s.allValid = true) {i : ℕ}
    (hi : i < s.compressionBufferIdx) : rows[i]? = some (some (s.compressionBuffer i)) := by
  rw [h.idx_eq] at hi
  have hrow := List.getElem?_eq_getElem hi
  rw [h.allValid_eq] at hvld
  obtain ⟨v, hv⟩ := isSome_iff_exists.1 (List.all_eq_true.1 hvld _ (getElem_mem hi))
  rw [hv] at hrow
  rw [hrow, h.buffer_eq i v hrow]

/-- A value is the first one and the sum of the differences up to it. -/
theorem HasDeltas.buffer_eq (h : s.HasDeltas) (i : ℕ) (hi : i < s.compressionBufferIdx) :
    s.compressionBuffer i = s.compressionBuffer 0 + ∑ j ∈ Finset.range i, s.deltaBuffer (j + 1) := by
  have hsum : ∑ j ∈ Finset.range i, s.deltaBuffer (j + 1) =
      ∑ j ∈ Finset.range i, (s.compressionBuffer (j + 1) - s.compressionBuffer j) :=
    Finset.sum_congr rfl fun j hj => h.deltaBuffer_succ j (by have := Finset.mem_range.1 hj; omega)
  rw [hsum, Finset.sum_range_sub, add_sub_cancel]

theorem HasDeltas.deltaBuffer_of_eq (h : s.HasDeltas) (heq : s.maximumDelta = s.minimumDelta) {i : ℕ}
    (hi : i + 1 < s.compressionBufferIdx) : s.deltaBuffer (i + 1) = s.maximumDelta := by
  have hmin := h.minimumDelta_le i hi
  rw [← heq] at hmin
  exact numericValue_inj.1 (le_antisymm (h.le_maximumDelta i hi) hmin)

theorem toNat_sub_cases {w : ℕ} (x y : BitVec w) : y.toNat ≤ x.toNat ∧ (x - y).toNat = x.toNat - y.toNat ∨
      x.toNat < y.toNat ∧ (x - y).toNat = 2 ^ w - (y.toNat - x.toNat) := by
  rcases le_or_gt y.toNat x.toNat with hle | hlt
  · exact .inl ⟨hle, BitVec.toNat_sub_of_le (BitVec.le_def.2 hle)⟩
  · rw [BitVec.toNat_sub, Nat.mod_eq_of_lt (by omega)]
    omega

section

variable (h : s.Gathers rows) (hd : s.HasDeltas) (heq : s.maximumDelta = s.minimumDelta)

include h hd heq

/-- Values without a sign that are not greater than the greatest one with a sign, and grow or shrink. -/
theorem Gathers.count_le
    (hsgn : T.isSigned = false) (hne : s.maximumDelta ≠ 0) : s.compressionBufferIdx ≤ 2 ^ (T.bits - 1) := by
  have htwo := hd.two_le
  have hpow : 2 ^ T.bits = 2 * 2 ^ (T.bits - 1) := by
    rw [← pow_succ', Nat.sub_add_cancel T.bits_pos]
  obtain ⟨limit, hlimit⟩ : ∃ n, n = 2 ^ (T.bits - 1) := ⟨_, rfl⟩
  have hpos : s.maximumDelta.toNat ≠ 0 := fun hz => hne (BitVec.eq_of_toNat_eq hz)
  have hmx : ∀ i < s.compressionBufferIdx, (s.compressionBuffer i).toNat < limit := by
    intro i hi
    have hrow := h.buffer_of_allValid hd.allValid hi
    have hle := (h.le_maximum _ (mem_of_getElem? hrow)).trans hd.maximum_le
    have hmax := @BitVec.toNat_intMax T.bits
    rw [hsgn] at hle
    change ((s.compressionBuffer i).toNat : ℤ) ≤ (BitVec.intMax T.bits).toNat at hle
    omega
  have hstep : ∀ i, i + 1 < s.compressionBufferIdx →
      (s.compressionBuffer (i + 1)).toNat = (s.compressionBuffer i).toNat + s.maximumDelta.toNat ∧
          s.maximumDelta.toNat < limit ∨
        (s.compressionBuffer (i + 1)).toNat < (s.compressionBuffer i).toNat ∧ limit ≤ s.maximumDelta.toNat := by
    intro i hi
    have hnx := hmx (i + 1) hi
    have hlt := hmx i (Nat.lt_of_succ_lt hi)
    rw [← hd.deltaBuffer_of_eq heq hi, hd.deltaBuffer_succ i hi]
    rcases toNat_sub_cases (s.compressionBuffer (i + 1)) (s.compressionBuffer i) with hsub | hsub <;> omega
  obtain ⟨n, hn⟩ : ∃ n, s.compressionBufferIdx = n + 1 := ⟨s.compressionBufferIdx - 1, by omega⟩
  rcases Nat.lt_or_ge s.maximumDelta.toNat limit with hgrow | hshrink
  · have hle : ∀ i < s.compressionBufferIdx, i ≤ (s.compressionBuffer i).toNat := by
      intro i
      induction i with
      | zero => exact fun _ => Nat.zero_le _
      | succ i ih =>
        intro hi
        rcases hstep i hi with h | h <;> omega
    have hlst := hle n (by omega)
    have hlt := hmx n (by omega)
    omega
  · have hle : ∀ i < s.compressionBufferIdx, (s.compressionBuffer i).toNat + i ≤ (s.compressionBuffer 0).toNat := by
      intro i
      induction i with
      | zero => exact fun _ => le_rfl
      | succ i ih =>
        intro hi
        rcases hstep i hi with h | h <;> omega
    have hlst := hle n (by omega)
    have hlt := hmx 0 (by omega)
    omega

theorem Gathers.packs_constantDelta :
    (PackedGroup.constantDelta s.maximumDelta (s.compressionBuffer 0) s.compressionBufferIdx).Packs rows where
  count_eq := h.idx_eq
  value_eq i v hv := by
    have hlt : i < s.compressionBufferIdx := h.idx_eq ▸ (List.getElem?_eq_some_iff.1 hv).1
    have hsum : ∑ j ∈ Finset.range i, s.deltaBuffer (j + 1) = ∑ j ∈ Finset.range i, s.maximumDelta :=
      Finset.sum_congr rfl fun j hj =>
        hd.deltaBuffer_of_eq heq (by have := Finset.mem_range.1 hj; omega)
    rw [PackedGroup.value, ← h.buffer_eq i v hv, hd.buffer_eq i hlt, hsum, Finset.sum_const, Finset.card_range,
      nsmul_eq_mul, BitVec.natCast_eq_ofNat]
    ring
  width_le := Nat.zero_le _
  count_le := by
    rintro c frame n hg hsgn hne
    obtain ⟨rfl, -, rfl⟩ := PackedGroup.constantDelta.inj hg
    exact h.count_le hd heq hsgn hne

end

/-- The distances of the differences to the least one fit the width. -/
theorem Gathers.packs_deltaFor (h : s.Gathers rows) (hd : s.HasDeltas) :
    (PackedGroup.deltaFor (subtractFrameOfReference s.deltaBuffer s.compressionBufferIdx s.minimumDelta)
      (minimumBitWidth T false s.minMaxDeltaDiff) s.minimumDelta s.deltaOffset
      s.compressionBufferIdx).Packs rows where
  count_eq := h.idx_eq
  value_eq i v hv := by
    have hlt : i < s.compressionBufferIdx := h.idx_eq ▸ (List.getElem?_eq_some_iff.1 hv).1
    have hdlt : ∀ j < s.compressionBufferIdx, lowerBits (minimumBitWidth T false s.minMaxDeltaDiff)
          (subtractFrameOfReference s.deltaBuffer s.compressionBufferIdx s.minimumDelta j) + s.minimumDelta =
            s.deltaBuffer j := by
      intro j hj
      have hbits := lt_two_pow_minimumBitWidth s.minMaxDeltaDiff
      rw [subtractFrameOfReference, if_pos hj, lowerBits_of_lt, BitVec.sub_add_cancel]
      cases j with
      | zero =>
        rw [hd.deltaBuffer_zero, BitVec.sub_self]
        exact Nat.two_pow_pos _
      | succ j =>
        exact (toNat_sub_le T.bits_pos hd.diff_eq (hd.minimumDelta_le j hj) (hd.le_maximumDelta j hj)).trans_lt hbits
    have hsum : ∑ j ∈ Finset.range (i + 1), (lowerBits (minimumBitWidth T false s.minMaxDeltaDiff)
          (subtractFrameOfReference s.deltaBuffer s.compressionBufferIdx s.minimumDelta j) + s.minimumDelta) =
            ∑ j ∈ Finset.range (i + 1), s.deltaBuffer j :=
      Finset.sum_congr rfl fun j hj => hdlt j (by have := Finset.mem_range.1 hj; omega)
    rw [PackedGroup.value, ← h.buffer_eq i v hv, hd.buffer_eq i hlt, hsum, Finset.sum_range_succ',
      hd.deltaBuffer_zero, hd.offset_eq]
    ring
  width_le := minimumBitWidth_le _
  count_le _ _ _ h := nomatch h

/-- The group that is handed over has the values of the rows. -/
theorem Gathers.flush (h : s.Gathers rows) (hcan : s.canDoDelta = false) {g : PackedGroup T}
    (hg : s.flush.2.1 = some g) : g.Packs rows := by
  obtain ⟨diff, canDoFor, hfor, hdiff⟩ := calculateFORStats_spec s
  obtain ⟨hsm, hdeltas⟩ := calculateDeltaStats_spec s.calculateFORStats (by rw [hfor]; exact hcan)
  rw [BitpackingState.flush] at hg
  split at hg
  case isTrue => exact nomatch hg
  split at hg
  case isTrue hone =>
    obtain ⟨hone, -⟩ := Bool.and_eq_true_iff.1 hone
    obtain rfl := some.inj hg
    exact h.packs_constant ((Bool.or_eq_true_iff.1 hone).imp id eq_of_beq)
  dsimp only at hg
  generalize s.calculateFORStats.calculateDeltaStats = s' at hsm hdeltas hg
  rw [hfor] at hsm
  have hstats : Gathers { s with minMaxDiff := diff, canDoFor := canDoFor } rows :=
    ⟨h.idx_eq, h.buffer_eq, h.minimum_le, h.le_maximum, h.allValid_eq, h.allInvalid_eq⟩
  have hrs := hstats.congr hsm
  split at hg
  case isTrue hmode =>
    obtain rfl := some.inj hg
    simp only [Bool.and_eq_true, beq_iff_eq] at hmode
    exact hrs.packs_constantDelta (hdeltas hmode.1.1.1) hmode.1.1.2
  split at hg
  case isTrue hmode =>
    obtain rfl := some.inj hg
    simp only [Bool.and_eq_true] at hmode
    exact hrs.packs_deltaFor (hdeltas hmode.1.1)
  split at hg
  case isTrue hmode =>
    obtain rfl := some.inj hg
    refine hrs.packs_for ?_
    rw [hsm.maximum_eq, hsm.minimum_eq, hsm.minMaxDiff_eq]
    exact hdiff (hsm.canDoFor_eq.symm.trans hmode)
  case isFalse => exact nomatch hg

end Decodes

end BitpackingState

end WfOpt

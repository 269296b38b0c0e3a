import WfOpt.Storage.Compression.BitpackingWriter
import WfOpt.Storage.Compression.RLEScan

/-!
# Scans of bitpacked segments

A scan has loaded the header of a group, and is at a row of it. Where differences are packed, it also has the value
of the row before, so that skipped rows are decoded as well. Blocks of values are unpacked as a whole. Whatever
calls have been made, the scan is at its row (`BitpackingScanState.At`), and returns the values of the groups, which
are those of the rows (`compress_readsAs`).
-/

namespace WfOpt

open List Nat

variable {T : IntegralType} {g : PackedGroup T}

/-! ## Decoding -/

/-- `ApplyFrameOfReference` -/
def applyFrameOfReference (dst : ℕ → T.Value) (frameOfReference : T.Value) (size : ℕ) : ℕ → T.Value :=
  if frameOfReference = 0 then dst else fun i => if i < size then dst i + frameOfReference else dst i

/-- `DeltaDecode`: each value is added to the one before, the first one to the value before the buffer. -/
def deltaDecode (data : ℕ → T.Value) (previousValue : T.Value) : ℕ → T.Value
  | 0 => data 0 + previousValue
  | i + 1 => data (i + 1) + deltaDecode data previousValue i

/-- `BitpackingScanState`, without the buffer to which blocks are unpacked. -/
structure BitpackingScanState (T : IntegralType) where
  currentGroup : BitpackingMode × ℕ
  currentWidth : ℕ
  currentFrameOfReference : T.Value
  currentConstant : T.Value
  currentDeltaOffset : T.Value
  currentGroupOffset : ℕ
  currentGroupPtr : ℕ
  bitpackingMetadataPtr : ℕ

namespace BitpackingScanState

variable (p : BlockPacker T.bits) (data : Memory)

/-- The first value of a group is read. -/
def readFirstValue (s : BitpackingScanState T) : Outcome (BitpackingScanState T) := match s.currentGroup.1 with
  | .constant => pure { s with
      currentConstant := data.load T.Value s.currentGroupPtr
      currentGroupPtr := s.currentGroupPtr + T.size }
  | .for_ | .constantDelta | .deltaFor => pure { s with
      currentFrameOfReference := data.load T.Value s.currentGroupPtr
      currentGroupPtr := s.currentGroupPtr + T.size }
  | _ => throw "Invalid bitpacking mode"

/-- The second value of a group is read. -/
def readSecondValue (s : BitpackingScanState T) : Outcome (BitpackingScanState T) := match s.currentGroup.1 with
  | .constantDelta => pure { s with
      currentConstant := data.load T.Value s.currentGroupPtr
      currentGroupPtr := s.currentGroupPtr + T.size }
  | .for_ | .deltaFor => pure { s with
      -- the width is one byte
      currentWidth := (data.load T.Value s.currentGroupPtr).toNat % 256
      currentGroupPtr := s.currentGroupPtr + max T.size 1 }
  | .constant => pure s
  | _ => throw "Invalid bitpacking mode"

/-- The third value of a group is read. -/
def readThirdValue (s : BitpackingScanState T) : BitpackingScanState T :=
  if s.currentGroup.1 = .deltaFor then { s with
    currentDeltaOffset := data.load T.Value s.currentGroupPtr
    currentGroupPtr := s.currentGroupPtr + T.size }
  else s

/-- `LoadNextGroup` -/
def loadNextGroup (s : BitpackingScanState T) : Outcome (BitpackingScanState T) := do
  let group := decodeMeta data s.bitpackingMetadataPtr
  let s ← readFirstValue data { s with
    currentGroupOffset := 0
    currentGroup := group
    bitpackingMetadataPtr := s.bitpackingMetadataPtr - 4
    currentGroupPtr := group.2 }
  let s ← s.readSecondValue data
  return s.readThirdValue data

/-- The constructor of `BitpackingScanState`: what the fields have been is arbitrary. -/
def new (uninitialized : BitpackingScanState T) : Outcome (BitpackingScanState T) :=
  loadNextGroup data { uninitialized with bitpackingMetadataPtr := data.loadNat 8 0 - 4 }

/-- The row of the scan in its block. -/
def offsetInCompressionGroup (s : BitpackingScanState T) : ℕ := s.currentGroupOffset % bitpackingAlgorithmGroupSize

/-- The start of the block of a row. -/
def decompressionGroupStart (s : BitpackingScanState T) : ℕ :=
  s.currentGroupPtr + s.currentGroupOffset * s.currentWidth / 8 - s.offsetInCompressionGroup * s.currentWidth / 8

/-- `UnPackBlock` of the current group. -/
def unPackBlock (s : BitpackingScanState T) (ptr i : ℕ) : T.Value :=
  p.unPackBlock (data.read ptr (4 * s.currentWidth)) s.currentWidth i

/-- The rest of a block of differences, decoded. -/
def decodeDeltas (s : BitpackingScanState T) (block : ℕ → T.Value) (size : ℕ) : ℕ → T.Value :=
  deltaDecode (applyFrameOfReference block s.currentFrameOfReference size) s.currentDeltaOffset

/-- The loop of `Skip` over blocks of differences. -/
def skipLoop : ℕ → BitpackingScanState T → ℕ → Outcome (BitpackingScanState T)
  | _, s, 0 => pure s
  | 0, _, _ + 1 => .running
  | fuel + 1, s, remaining + 1 =>
    let offset := s.offsetInCompressionGroup
    let skipping := min (remaining + 1) (bitpackingAlgorithmGroupSize - offset)
    let block := s.decodeDeltas (fun i => s.unPackBlock p data s.decompressionGroupStart (offset + i)) skipping
    skipLoop fuel { s with
      currentDeltaOffset := block (skipping - 1)
      currentGroupOffset := s.currentGroupOffset + skipping } (remaining + 1 - skipping)

/-- `Skip` to the group of a row, with the number of rows that this has skipped. -/
def skipGroups (s : BitpackingScanState T) (skipCount : ℕ) : Outcome (BitpackingScanState T × ℕ) :=
  let metaGroupsToSkip := (skipCount + s.currentGroupOffset) / bitpackingMetadataGroupSize
  if metaGroupsToSkip ≠ 0 then do
    let s' ← loadNextGroup data { s with
      bitpackingMetadataPtr := s.bitpackingMetadataPtr - (metaGroupsToSkip - 1) * 4 }
    return (s', bitpackingMetadataGroupSize - s.currentGroupOffset +
      (metaGroupsToSkip - 1) * bitpackingMetadataGroupSize)
  else return (s, 0)

/-- `Skip` -/
def skip (s : BitpackingScanState T) (skipCount : ℕ) : Outcome (BitpackingScanState T) := do
  let (s, skipped) ← s.skipGroups data skipCount
  let remaining := skipCount - skipped
  match s.currentGroup.1 with
  | .constant | .constantDelta | .for_ => pure { s with currentGroupOffset := s.currentGroupOffset + remaining }
  | _ => skipLoop p data remaining s remaining

/-- A loop that writes values to `n` rows. -/
def copyRows (result : ℕ → T.Value) (offset n : ℕ) (values : ℕ → T.Value) : ℕ → T.Value := fun i =>
  if offset ≤ i ∧ i < offset + n then values (i - offset) else result i

/-- The rows of a block that a scan decodes. -/
def scanBlock (s : BitpackingScanState T) (toScan : ℕ) : ℕ → T.Value := let offset := s.offsetInCompressionGroup
  let start := s.decompressionGroupStart
  let block := if toScan = bitpackingAlgorithmGroupSize ∧ offset = 0 then s.unPackBlock p data start
    else fun i => s.unPackBlock p data start (offset + i)
  if s.currentGroup.1 = .deltaFor then s.decodeDeltas block toScan
  else applyFrameOfReference block s.currentFrameOfReference toScan

/-- When all rows of a group have been scanned, the next group is loaded. -/
def nextGroup (s : BitpackingScanState T) : Outcome (BitpackingScanState T) :=
  if s.currentGroupOffset = bitpackingMetadataGroupSize then s.loadNextGroup data else pure s

/-- The loop of `BitpackingScanPartial` -/
def scanLoop : ℕ → BitpackingScanState T → (ℕ → T.Value) → ℕ → ℕ → Outcome (BitpackingScanState T × (ℕ → T.Value))
  | _, s, result, _, 0 => pure (s, result)
  | 0, _, _, _, _ + 1 => .running
  | fuel + 1, s, result, offset, remaining + 1 => do
    let s ← s.nextGroup data
    match s.currentGroup.1 with
    | .constant =>
      let toScan := min (remaining + 1) (bitpackingMetadataGroupSize - s.currentGroupOffset)
      -- all rows up to the end are filled, and the later ones written again
      scanLoop fuel { s with currentGroupOffset := s.currentGroupOffset + toScan }
        (fillRows result offset (remaining + 1) s.currentConstant) (offset + toScan) (remaining + 1 - toScan)
    | .constantDelta =>
      let toScan := min (remaining + 1) (bitpackingMetadataGroupSize - s.currentGroupOffset)
      scanLoop fuel { s with currentGroupOffset := s.currentGroupOffset + toScan }
        (copyRows result offset toScan fun i =>
          s.currentConstant * BitVec.ofNat T.bits (s.currentGroupOffset + i) + s.currentFrameOfReference)
        (offset + toScan) (remaining + 1 - toScan)
    | _ =>
      let toScan := min (remaining + 1) (bitpackingAlgorithmGroupSize - s.offsetInCompressionGroup)
      let block := s.scanBlock p data toScan
      scanLoop fuel { s with
          currentDeltaOffset := if s.currentGroup.1 = .deltaFor then block (toScan - 1) else s.currentDeltaOffset
          currentGroupOffset := s.currentGroupOffset + toScan }
        (copyRows result offset toScan block) (offset + toScan) (remaining + 1 - toScan)

/-- `BitpackingScanPartial` -/
def scanPartial (s : BitpackingScanState T) (scanCount : ℕ) (result : ℕ → T.Value) (resultOffset : ℕ) :
    Outcome (BitpackingScanState T × (ℕ → T.Value)) := s.scanLoop p data scanCount result resultOffset scanCount

/-- `BitpackingScan` -/
def scan (s : BitpackingScanState T) (scanCount : ℕ) (result : ℕ → T.Value) :
    Outcome (BitpackingScanState T × (ℕ → T.Value)) := s.scanPartial p data scanCount result 0

/-! ## Groups that are loaded -/

variable {p data}

/-- What has been loaded of a group, with the sum of the differences up to a row. -/
def HasFields (p : BlockPacker T.bits) (data : Memory) (s : BitpackingScanState T) : PackedGroup T → ℕ → Prop
  | .constant c _, _ => s.currentConstant = c
  | .constantDelta c frame _, _ => s.currentConstant = c ∧ s.currentFrameOfReference = frame
  | .deltaFor values width frame deltaOffset n, offset =>
    s.currentFrameOfReference = frame ∧ s.currentWidth = width ∧
      data.read s.currentGroupPtr (p.packBuffer values n width).length = p.packBuffer values n width ∧
      s.currentDeltaOffset =
        deltaOffset + ∑ j ∈ Finset.range offset, (PackedGroup.lowerBits width (values j) + frame)
  | .for_ values width frame n, _ =>
    s.currentFrameOfReference = frame ∧ s.currentWidth = width ∧
      data.read s.currentGroupPtr (p.packBuffer values n width).length = p.packBuffer values n width

/-- A group is loaded, and the scan is at a row of it. -/
structure Loaded (p : BlockPacker T.bits) (data : Memory) (s : BitpackingScanState T) (g : PackedGroup T)
    (offset : ℕ) : Prop where
  mode_eq : s.currentGroup.1 = g.mode
  offset_eq : s.currentGroupOffset = offset
  fields : HasFields p data s g offset

theorem load_width {offset width : ℕ} (hwid : width ≤ T.bits)
    (h : data.read offset (Storable.toBytes (BitVec.ofNat T.bits width)).length =
      Storable.toBytes (BitVec.ofNat T.bits width)) :
    (data.load T.Value offset).toNat % 256 = width := by
  have hpow : 2 ^ 8 ≤ 2 ^ T.bits := Nat.pow_le_pow_right (by decide) T.le_bits
  have hlt : width < 2 ^ 8 := (hwid.trans T.bits_le).trans_lt (by decide)
  have hload : data.load T.Value offset = BitVec.ofNat T.bits width := Memory.load_of_read h
  rw [hload, BitVec.toNat_ofNat, mod_eq_of_lt (hlt.trans_le hpow)]
  exact mod_eq_of_lt hlt

theorem loadNextGroup_spec {metadataEnd dataEnd k : ℕ} (s : BitpackingScanState T)
    (hstor : g.StoredIn p data metadataEnd dataEnd k) (hend : dataEnd ≤ 2 ^ 24) (hwid : g.width ≤ T.bits)
    (hptr : s.bitpackingMetadataPtr = metadataEnd - 4 * (k + 1)) :
    ∃ s', s.loadNextGroup data = pure s' ∧ s'.Loaded p data g 0 ∧
      s'.bitpackingMetadataPtr = s.bitpackingMetadataPtr - 4 := by
  obtain ⟨offset, hhead, hle, hmode, hbs⟩ := hstor
  have hpos := length_bytes_pos p g
  have hmeta := decodeMeta_eq hmode (by omega)
  have hsz : ∀ x : T.Value, (Storable.toBytes x).length = T.size := length_toBytes_value
  have hmax : max T.size 1 = T.size := max_eq_left T.size_pos
  rw [← hptr] at hmeta
  rw [loadNextGroup, hmeta]
  cases g with
  | constant c n => exact ⟨_, rfl, ⟨rfl, rfl, Memory.load_of_read hbs⟩, rfl⟩
  | constantDelta c frame n =>
    obtain ⟨hfrm, hconst⟩ := Memory.read_append hbs
    rw [hsz] at hconst
    exact ⟨_, rfl, ⟨rfl, rfl, Memory.load_of_read hconst, Memory.load_of_read hfrm⟩, rfl⟩
  | deltaFor values width frame deltaOffset n =>
    obtain ⟨hfrm, hrst⟩ := Memory.read_append hbs
    obtain ⟨hbits, hrst⟩ := Memory.read_append hrst
    obtain ⟨hdlt, hbuf⟩ := Memory.read_append hrst
    rw [hsz frame] at hbits
    rw [hsz frame, hsz (BitVec.ofNat T.bits width)] at hdlt
    rw [hsz frame, hsz (BitVec.ofNat T.bits width), hsz deltaOffset] at hbuf
    refine ⟨_, rfl, ⟨rfl, rfl, Memory.load_of_read hfrm, load_width hwid hbits, ?_, ?_⟩, rfl⟩
    · rw [hmax]
      exact hbuf
    · change data.load T.Value (offset + T.size + max T.size 1) = _
      rw [hmax, Memory.load_of_read hdlt, Finset.sum_range_zero, add_zero]
  | for_ values width frame n =>
    obtain ⟨hfrm, hrst⟩ := Memory.read_append hbs
    obtain ⟨hbits, hbuf⟩ := Memory.read_append hrst
    rw [hsz frame] at hbits
    rw [hsz frame, hsz (BitVec.ofNat T.bits width)] at hbuf
    refine ⟨_, rfl, ⟨rfl, rfl, Memory.load_of_read hfrm, load_width hwid hbits, ?_⟩, rfl⟩
    rw [hmax]
    exact hbuf

/-! ## Blocks -/

open PackedGroup (lowerBits)

theorem unPackBlock_spec {s : BitpackingScanState T} {values : ℕ → T.Value} {count width : ℕ}
    (hwid : s.currentWidth = width) (hle : width ≤ T.bits)
    (hrd : data.read s.currentGroupPtr (p.packBuffer values count width).length = p.packBuffer values count width)
    {i : ℕ} (hi : s.offsetInCompressionGroup + i < 32) (hcnt : s.currentGroupOffset + i < count) :
    s.unPackBlock p data s.decompressionGroupStart (s.offsetInCompressionGroup + i) =
      lowerBits width (values (s.currentGroupOffset + i)) := by
  obtain ⟨block, hblk⟩ : ∃ block, block = s.currentGroupOffset / 32 := ⟨_, rfl⟩
  have hoff : s.offsetInCompressionGroup = s.currentGroupOffset % 32 := rfl
  have hspl : s.currentGroupOffset = 32 * block + s.offsetInCompressionGroup := by omega
  obtain ⟨src, hsrc, hbs⟩ := p.packBlock_packBuffer values width (by omega : 32 * block < count)
  have hst : s.decompressionGroupStart = s.currentGroupPtr + 4 * width * block := by
    have hmul : s.currentGroupOffset * width = 8 * (4 * width * block) + s.offsetInCompressionGroup * width := by
      rw [hspl]
      ring
    rw [decompressionGroupStart, hwid, hmul, mul_add_div (by decide)]
    omega
  have hlen : 4 * width * block + 4 * width ≤ (p.packBuffer values count width).length ∨ width = 0 := by
    have htake := congrArg length hbs
    rw [p.length_packBlock, length_take, length_drop] at htake
    omega
  have hblockread : data.read s.decompressionGroupStart (4 * width) = p.packBlock src width := by
    rw [hst, ← hbs]
    rcases hlen with hlen | rfl
    · conv_rhs => rw [← hrd]
      exact (data.take_drop_read _ hlen).symm
    · rfl
  have hlt : (src (s.offsetInCompressionGroup + i)).toNat % 2 ^ width < 2 ^ T.bits :=
    (mod_lt _ (Nat.two_pow_pos width)).trans_le (Nat.pow_le_pow_right (by decide) hle)
  have hval : src (s.offsetInCompressionGroup + i) = values (s.currentGroupOffset + i) := by
    rw [hsrc _ hi (by omega)]
    exact congrArg values (by omega)
  rw [unPackBlock, hwid, hblockread]
  refine BitVec.eq_of_toNat_eq ?_
  rw [p.toNat_unPackBlock src width hle _ hi, lowerBits, BitVec.toNat_ofNat, ← hval, mod_eq_of_lt hlt]

theorem applyFrameOfReference_of_lt (dst : ℕ → T.Value) (frame : T.Value) {size i : ℕ} (hi : i < size) :
    applyFrameOfReference dst frame size i = dst i + frame := by
  rw [applyFrameOfReference]
  split
  case isTrue hz => rw [hz, add_zero]
  case isFalse => exact if_pos hi

theorem deltaDecode_eq (differences : ℕ → T.Value) (previousValue : T.Value) (i : ℕ) :
    deltaDecode differences previousValue i = previousValue + ∑ j ∈ Finset.range (i + 1), differences j := by
  induction i with
  | zero => rw [deltaDecode, Finset.sum_range_one, add_comm]
  | succ i ih =>
    rw [deltaDecode, ih, Finset.sum_range_succ _ (i + 1)]
    ring

section Decode

variable {s : BitpackingScanState T} {g : PackedGroup T} {offset n i : ℕ}

/-- The sums of the differences go on behind the row before. -/
theorem decodeDeltas_spec {values : ℕ → T.Value} {width count : ℕ} {frame deltaOffset : T.Value}
    (h : s.Loaded p data (.deltaFor values width frame deltaOffset count) offset) {block : ℕ → T.Value}
    (hblk : ∀ i < n, block i = lowerBits width (values (offset + i))) (hi : i < n) :
    s.decodeDeltas block n i = (PackedGroup.deltaFor values width frame deltaOffset count).value (offset + i) := by
  obtain ⟨hfrm, -, -, hdlt⟩ := h.fields
  have hsum : ∑ j ∈ Finset.range (i + 1), applyFrameOfReference block s.currentFrameOfReference n j =
      ∑ j ∈ Finset.range (i + 1), (lowerBits width (values (offset + j)) + frame) := by
    refine Finset.sum_congr rfl fun j hj => ?_
    have hj : j < n := by
      have := Finset.mem_range.1 hj
      omega
    rw [applyFrameOfReference_of_lt _ _ hj, hblk j hj, hfrm]
  rw [decodeDeltas, deltaDecode_eq, hsum, hdlt, PackedGroup.value, add_assoc, ← Finset.sum_range_add, Nat.add_assoc]

/-- The rows of a block are decoded to the values of the group. -/
theorem scanBlock_spec (h : s.Loaded p data g offset) (hle : g.width ≤ T.bits)
    (hmode : g.mode = .deltaFor ∨ g.mode = .for_) (hn : s.offsetInCompressionGroup + n ≤ 32)
    (hcnt : offset + n ≤ g.count) (hi : i < n) : s.scanBlock p data n i = g.value (offset + i) := by
  have hoff := h.offset_eq
  rw [scanBlock, h.mode_eq]
  generalize hblk : (if n = bitpackingAlgorithmGroupSize ∧ s.offsetInCompressionGroup = 0 then
    s.unPackBlock p data s.decompressionGroupStart
    else fun i => s.unPackBlock p data s.decompressionGroupStart (s.offsetInCompressionGroup + i)) = block
  have hrs : ∀ i, block i = s.unPackBlock p data s.decompressionGroupStart (s.offsetInCompressionGroup + i) := by
    intro i
    rw [← hblk]
    split
    case isTrue halig => rw [halig.2, Nat.zero_add]
    case isFalse => rfl
  cases g with
  | constant c count | constantDelta c frame count => exact absurd hmode (by simp [PackedGroup.mode])
  | deltaFor values width frame deltaOffset count =>
    obtain ⟨-, hwid, hrd, -⟩ := h.fields
    have hdlt : (PackedGroup.deltaFor values width frame deltaOffset count).mode = .deltaFor := rfl
    dsimp only [PackedGroup.count] at hcnt
    refine decodeDeltas_spec h (fun i hi => ?_) hi
    rw [hrs, ← hoff]
    exact unPackBlock_spec hwid hle hrd (by omega) (by omega)
  | for_ values width frame count =>
    obtain ⟨hfrm, hwid, hrd⟩ := h.fields
    have hfor : (PackedGroup.for_ values width frame count).mode ≠ .deltaFor := nofun
    dsimp only [PackedGroup.count] at hcnt
    rw [if_neg hfor, applyFrameOfReference_of_lt _ _ hi, hrs, hfrm, ← hoff,
      unPackBlock_spec hwid hle hrd (by omega) (by omega)]
    rfl

/-- The scan goes on to a later row of the group, with the value of the row before it. -/
theorem Loaded.advance (h : s.Loaded p data g offset) (n : ℕ) {deltaOffset : T.Value}
    (hdlt : g.mode = .deltaFor → 0 < n → deltaOffset = g.value (offset + n - 1))
    (hz : n = 0 → deltaOffset = s.currentDeltaOffset) :
    ({ s with currentDeltaOffset := deltaOffset, currentGroupOffset := s.currentGroupOffset + n }).Loaded p data g
      (offset + n) := by
  refine ⟨h.mode_eq, congrArg (· + n) h.offset_eq, ?_⟩
  have hfields := h.fields
  cases g with
  | constant c count => exact hfields
  | constantDelta c frame count => exact hfields
  | for_ values width frame count => exact hfields
  | deltaFor values width frame delta count =>
    obtain ⟨hfrm, hwid, hrd, hsum⟩ := hfields
    refine ⟨hfrm, hwid, hrd, ?_⟩
    cases n with
    | zero => rw [hz rfl, hsum, Nat.add_zero]
    | succ n => exact hdlt rfl (succ_pos n)

end Decode

/-- Rows of a block of differences are skipped. -/
theorem skipLoop_spec {values : ℕ → T.Value} {width count : ℕ} {frame deltaOffset : T.Value}
    (hle : width ≤ T.bits) (fuel : ℕ) : ∀ {s : BitpackingScanState T} {offset remaining : ℕ},
      s.Loaded p data (.deltaFor values width frame deltaOffset count) offset → remaining ≤ fuel →
        offset + remaining ≤ count → ∃ s', s.skipLoop p data fuel remaining = pure s' ∧
          s'.Loaded p data (.deltaFor values width frame deltaOffset count) (offset + remaining) ∧
          s'.bitpackingMetadataPtr = s.bitpackingMetadataPtr := by
  induction fuel with
  | zero =>
    intro s offset remaining h hfuel hcnt
    obtain rfl := le_zero.1 hfuel
    exact ⟨s, rfl, h, rfl⟩
  | succ fuel ih =>
    intro s offset remaining h hfuel hcnt
    cases remaining with
    | zero => exact ⟨s, rfl, h, rfl⟩
    | succ remaining =>
      have hoff := h.offset_eq
      have hmod : s.offsetInCompressionGroup < 32 := mod_lt _ (by decide)
      rw [skipLoop]
      generalize hskipping : min (remaining + 1) (bitpackingAlgorithmGroupSize - s.offsetInCompressionGroup) = n
      simp only [bitpackingAlgorithmGroupSize] at hskipping
      obtain ⟨-, hwid, hrd, -⟩ := h.fields
      have hblk : ∀ i < n, s.unPackBlock p data s.decompressionGroupStart (s.offsetInCompressionGroup + i) =
          lowerBits width (values (offset + i)) := by
        intro i hi
        rw [← hoff]
        exact unPackBlock_spec hwid hle hrd (by omega) (by omega)
      have hlst := decodeDeltas_spec h hblk (by omega : n - 1 < n)
      have hdlt : (PackedGroup.deltaFor values width frame deltaOffset count).mode = .deltaFor → 0 < n →
          s.decodeDeltas (fun i => s.unPackBlock p data s.decompressionGroupStart
            (s.offsetInCompressionGroup + i)) n (n - 1) =
            (PackedGroup.deltaFor values width frame deltaOffset count).value (offset + n - 1) := by
        intro _ hn
        rw [hlst]
        exact congrArg _ (by omega)
      obtain ⟨s', hs', hload, hptr⟩ := ih (h.advance n hdlt (by omega)) (by omega : remaining + 1 - n ≤ fuel)
        (by omega)
      refine ⟨s', hs', ?_, hptr⟩
      rwa [Nat.add_assoc, Nat.add_sub_cancel' (by omega : n ≤ remaining + 1)] at hload

end BitpackingScanState

/-! ## Positions -/

/-- The values of groups. -/
def groupValues (groups : List (PackedGroup T)) : List T.Value :=
  groups.flatMap fun g => (List.range g.count).map g.value

theorem length_groupValues (groups : List (PackedGroup T)) :
    (groupValues groups).length = (groups.map PackedGroup.count).sum := by
  rw [groupValues, length_flatMap]
  refine congrArg sum (map_congr_left fun g _ => ?_)
  rw [length_map, length_range]

theorem getElem?_groupValues {groups : List (PackedGroup T)} (h : IsChunked (groups.map PackedGroup.count))
    {k offset : ℕ} (hg : groups[k]? = some g) (hoff : offset < g.count) :
    (groupValues groups)[bitpackingMetadataGroupSize * k + offset]? = some (g.value offset) := by
  induction groups generalizing k with
  | nil => exact nomatch hg
  | cons first groups ih =>
    have hlen : ((range first.count).map first.value).length = first.count := by
      rw [length_map, length_range]
    rw [groupValues, flatMap_cons, ← groupValues]
    cases k with
    | zero =>
      obtain rfl := Option.some.inj hg
      rw [Nat.mul_zero, Nat.zero_add, List.getElem?_append_left (hoff.trans_eq hlen.symm), List.getElem?_map,
        List.getElem?_range hoff]
      rfl
    | succ k =>
      rw [List.getElem?_cons_succ] at hg
      have hk : k < groups.length := (List.getElem?_eq_some_iff.1 hg).1
      have hfull : first.count = bitpackingMetadataGroupSize := h.eq 0 first.count rfl (by
        rw [length_map, length_cons]
        omega)
      rw [List.getElem?_append_right (by rw [hlen, hfull, mul_succ]; omega), hlen, hfull, ← ih h.tail hg]
      exact congrArg _ (by rw [mul_succ]; omega)

/-- The bytes are those of groups that can be read. -/
structure IsPacked (p : BlockPacker T.bits) (data : Memory) (groups : List (PackedGroup T)) : Prop where
  chunked : IsChunked (groups.map PackedGroup.count)
  width_le : ∀ g ∈ groups, g.width ≤ T.bits
  storedIn : ∃ dataEnd, bitpackingHeaderSize ≤ dataEnd ∧ dataEnd ≤ 2 ^ 24 ∧
    dataEnd + 4 * groups.length = data.loadNat 8 0 ∧
    ∀ k (g : PackedGroup T), groups[k]? = some g → g.StoredIn p data (data.loadNat 8 0) dataEnd k

namespace BitpackingScanState

variable {p : BlockPacker T.bits} {data : Memory} {groups : List (PackedGroup T)}

/-- The scan is in a group, behind some rows of it. -/
structure InGroup (p : BlockPacker T.bits) (data : Memory) (groups : List (PackedGroup T)) (s : BitpackingScanState T)
    (k offset : ℕ) (g : PackedGroup T) : Prop where
  group : groups[k]? = some g
  offset_le : offset ≤ g.count
  loaded : s.Loaded p data g offset
  metadataPtr : s.bitpackingMetadataPtr + 4 * (k + 2) = data.loadNat 8 0

/-- The scan is behind some rows of the segment. -/
def At (p : BlockPacker T.bits) (data : Memory) (groups : List (PackedGroup T)) (s : BitpackingScanState T)
    (pos : ℕ) : Prop :=
  ∃ k offset g, pos = bitpackingMetadataGroupSize * k + offset ∧ s.InGroup p data groups k offset g

theorem loadNextGroup_inGroup (hpack : IsPacked p data groups) {k : ℕ}
    (hg : groups[k]? = some g) (s : BitpackingScanState T)
    (hptr : s.bitpackingMetadataPtr + 4 * (k + 1) = data.loadNat 8 0) :
    ∃ s', s.loadNextGroup data = pure s' ∧ s'.InGroup p data groups k 0 g := by
  obtain ⟨dataEnd, hhead, hend, hmeta, hstor⟩ := hpack.storedIn
  have hk := (List.getElem?_eq_some_iff.1 hg).1
  obtain ⟨s', hs', hload, hptr'⟩ := loadNextGroup_spec s (hstor k g hg) hend
    (hpack.width_le g (mem_of_getElem? hg)) (by omega)
  have height : bitpackingHeaderSize = 8 := rfl
  exact ⟨s', hs', ⟨hg, Nat.zero_le _, hload, by omega⟩⟩

/-- The row at a position is in a group. -/
theorem exists_group (hpack : IsPacked p data groups) {pos : ℕ} (hpos : pos < (groupValues groups).length) :
    ∃ g, groups[pos / bitpackingMetadataGroupSize]? = some g ∧ pos % bitpackingMetadataGroupSize < g.count := by
  rw [length_groupValues, hpack.chunked.lt_sum_iff] at hpos
  obtain ⟨n, hn, hlt⟩ := hpos
  rw [List.getElem?_map] at hn
  obtain ⟨g, hg, rfl⟩ := Option.map_eq_some_iff.1 hn
  exact ⟨g, hg, hlt⟩

variable {s : BitpackingScanState T} {pos n : ℕ}

section

variable (h : s.At p data groups pos) (hpack : IsPacked p data groups) (hn : pos + n < (groupValues groups).length)

include h hpack hn

theorem At.skipGroups : ∃ s' skipped offset g, s.skipGroups data n = pure (s', skipped) ∧
      s'.InGroup p data groups ((pos + n) / bitpackingMetadataGroupSize) offset g ∧
      offset + (n - skipped) = (pos + n) % bitpackingMetadataGroupSize ∧
      (pos + n) % bitpackingMetadataGroupSize < g.count := by
  obtain ⟨g', hg', hlt⟩ := exists_group hpack hn
  obtain ⟨k, offset, g, hpos, hgrp⟩ := h
  have hle := hgrp.offset_le
  have hcnt := hpack.chunked.le _ (mem_map_of_mem (mem_of_getElem? hgrp.group))
  obtain rfl := hgrp.loaded.offset_eq
  rw [BitpackingScanState.skipGroups]
  simp only [bitpackingMetadataGroupSize] at hpos hg' hlt hcnt ⊢
  obtain ⟨m, hm⟩ : ∃ m, m = (n + s.currentGroupOffset) / 2048 := ⟨_, rfl⟩
  have hdiv : (pos + n) / 2048 = k + m := by omega
  rw [← hm]
  by_cases hz : m = 0
  · have hgeq : g' = g := by
      rw [hdiv, hz, Nat.add_zero, hgrp.group] at hg'
      exact (Option.some.inj hg').symm
    rw [if_neg (not_not.2 hz), hdiv, hz]
    rw [hgeq] at hlt
    exact ⟨s, 0, s.currentGroupOffset, g, rfl, hgrp, by omega, hlt⟩
  · have hptr := hgrp.metadataPtr
    rw [hdiv] at hg' ⊢
    have hk : k + m < groups.length := (List.getElem?_eq_some_iff.1 hg').1
    obtain ⟨dataEnd, hhead, -, hmeta, -⟩ := hpack.storedIn
    rw [if_pos hz]
    obtain ⟨s', hs', hgrp'⟩ := loadNextGroup_inGroup hpack hg'
      { s with bitpackingMetadataPtr := s.bitpackingMetadataPtr - (m - 1) * 4 } (by
        change s.bitpackingMetadataPtr - (m - 1) * 4 + 4 * (k + m + 1) = _
        omega)
    exact ⟨s', 2048 - s.currentGroupOffset + (m - 1) * 2048, 0, g', by rw [hs']; rfl, hgrp', by omega, hlt⟩

theorem At.skip : ∃ s' g, s.skip p data n = pure s' ∧
      s'.InGroup p data groups ((pos + n) / bitpackingMetadataGroupSize)
        ((pos + n) % bitpackingMetadataGroupSize) g ∧
      (pos + n) % bitpackingMetadataGroupSize < g.count := by
  obtain ⟨s₁, skipped, offset, g, hskip, hgrp, hrst, hlt⟩ := h.skipGroups hpack hn
  rw [BitpackingScanState.skip, hskip, pure_bind]
  dsimp only
  rw [← hrst] at hlt ⊢
  generalize n - skipped = remaining at hlt ⊢
  have hload := hgrp.loaded
  have hadvance : g.mode ≠ .deltaFor →
      ({ s₁ with currentGroupOffset := s₁.currentGroupOffset + remaining }).InGroup p data groups
        ((pos + n) / bitpackingMetadataGroupSize) (offset + remaining) g := fun hmode =>
    ⟨hgrp.group, hlt.le, hload.advance remaining (fun hdlt => absurd hdlt hmode) fun _ => rfl, hgrp.metadataPtr⟩
  rw [hload.mode_eq]
  cases g with
  | constant c count | constantDelta c frame count
  | for_ values width frame count => exact ⟨_, _, rfl, hadvance nofun, hlt⟩
  | deltaFor values width frame deltaOffset count =>
    have hwid : width ≤ T.bits := hpack.width_le _ (mem_of_getElem? hgrp.group)
    obtain ⟨s', hs', hload', hptr⟩ := skipLoop_spec hwid remaining hload le_rfl hlt.le
    exact ⟨s', _, hs', ⟨hgrp.group, hlt.le, hload', hptr ▸ hgrp.metadataPtr⟩, hlt⟩

end

/-- Before a row is scanned, its group is loaded. -/
theorem At.enter (h : s.At p data groups pos) (hpack : IsPacked p data groups)
    (hpos : pos < (groupValues groups).length) : ∃ s' g, s.nextGroup data = pure s' ∧
      s'.InGroup p data groups (pos / bitpackingMetadataGroupSize) (pos % bitpackingMetadataGroupSize) g ∧
      pos % bitpackingMetadataGroupSize < g.count := by
  obtain ⟨g', hg', hlt⟩ := exists_group hpack hpos
  obtain ⟨k, offset, g, hpos', hgrp⟩ := h
  have hle := hgrp.offset_le
  have hcnt := hpack.chunked.le _ (mem_map_of_mem (mem_of_getElem? hgrp.group))
  rw [nextGroup, hgrp.loaded.offset_eq]
  simp only [bitpackingMetadataGroupSize] at hpos' hg' hlt hcnt ⊢
  by_cases hfull : offset = 2048
  · have hdiv : pos / 2048 = k + 1 := by omega
    have hmod : pos % 2048 = 0 := by omega
    rw [if_pos hfull, hmod]
    rw [hmod] at hlt
    rw [hdiv] at hg' ⊢
    obtain ⟨s', hs', hgrp'⟩ := loadNextGroup_inGroup hpack hg' s hgrp.metadataPtr
    exact ⟨s', g', hs', hgrp', hlt⟩
  · have hdiv : pos / 2048 = k := by omega
    have hmod : pos % 2048 = offset := by omega
    have hgeq : g' = g := by
      rw [hdiv, hgrp.group] at hg'
      exact (Option.some.inj hg').symm
    rw [if_neg hfull, hdiv, hmod]
    rw [hmod, hgeq] at hlt
    exact ⟨s, g, rfl, hgrp, hlt⟩

/-- Rows of a segment that are in one group. -/
theorem InGroup.add_le {k offset : ℕ} (h : s.InGroup p data groups k offset g) (hpack : IsPacked p data groups)
    (hn : bitpackingMetadataGroupSize * k + offset + n ≤ (groupValues groups).length)
    (hle : offset + n ≤ bitpackingMetadataGroupSize) : offset + n ≤ g.count := by
  cases n with
  | zero => exact h.offset_le
  | succ n =>
    have hlt : bitpackingMetadataGroupSize * k + (offset + n) < (groupValues groups).length := by omega
    obtain ⟨g', hg', hlt⟩ := exists_group hpack hlt
    rw [mul_add_div (by decide), div_eq_of_lt (by omega), Nat.add_zero, h.group] at hg'
    rw [mul_add_mod, mod_eq_of_lt (by omega)] at hlt
    rw [Option.some.inj hg']
    exact hlt

theorem copyRows_of_mem {result values : ℕ → T.Value} {offset n i : ℕ} (hi : i < n) :
    copyRows result offset n values (offset + i) = values i := by
  rw [copyRows, if_pos ⟨Nat.le_add_right _ _, Nat.add_lt_add_left hi _⟩, Nat.add_sub_cancel_left]

theorem copyRows_of_not_mem {result values : ℕ → T.Value} {offset n i : ℕ} (hi : i < offset ∨ offset + n ≤ i) :
    copyRows result offset n values i = result i :=
  if_neg fun h => hi.elim (not_lt.2 h.1) (not_le.2 h.2)

/-- The rows of a result are the values from a position on, and the others are as before. -/
structure Scanned (groups : List (PackedGroup T)) (pos : ℕ) (result : ℕ → T.Value) (offset n : ℕ)
    (result' : ℕ → T.Value) : Prop where
  values : ∀ i < n, (groupValues groups)[pos + i]? = some (result' (offset + i))
  frame : ∀ i, i < offset ∨ offset + n ≤ i → result' i = result i

/-- Rows of one group are followed by the others. -/
theorem Scanned.cons {result written result' : ℕ → T.Value} {offset k : ℕ}
    (h : Scanned groups (pos + k) written (offset + k) n result')
    (hvals : ∀ i < k, (groupValues groups)[pos + i]? = some (written (offset + i)))
    (hfrm : ∀ i, i < offset ∨ offset + (k + n) ≤ i → written i = result i) :
    Scanned groups pos result offset (k + n) result' where
  values i hi := by
    rcases Nat.lt_or_ge i k with hlt | hge
    · rw [hvals i hlt, h.frame _ (.inl (Nat.add_lt_add_left hlt _))]
    · obtain ⟨j, rfl⟩ := Nat.exists_eq_add_of_le hge
      rw [← Nat.add_assoc, ← Nat.add_assoc]
      exact h.values j (Nat.lt_of_add_lt_add_left hi)
  frame i hi := by
    rw [h.frame i (by omega), hfrm i hi]

/-- A scan returns the values of the rows from its position on. -/
theorem scanLoop_spec (hpack : IsPacked p data groups) (fuel : ℕ) :
    ∀ {s : BitpackingScanState T} {pos n : ℕ} (result : ℕ → T.Value) (offset : ℕ), s.At p data groups pos →
      n ≤ fuel → pos + n ≤ (groupValues groups).length → ∃ s' result',
        s.scanLoop p data fuel result offset n = pure (s', result') ∧ s'.At p data groups (pos + n) ∧
          Scanned groups pos result offset n result' := by
  induction fuel with
  | zero =>
    intro s pos n result offset h hfuel hle
    obtain rfl := le_zero.1 hfuel
    exact ⟨s, result, rfl, h, fun i hi => absurd hi (Nat.not_lt_zero i), fun _ _ => rfl⟩
  | succ fuel ih =>
    intro s pos n result offset h hfuel hle
    cases n with
    | zero => exact ⟨s, result, rfl, h, fun i hi => absurd hi (Nat.not_lt_zero i), fun _ _ => rfl⟩
    | succ n =>
      obtain ⟨s₁, g, henter, hgrp, hlt⟩ := h.enter hpack (by omega)
      have hpos : bitpackingMetadataGroupSize * (pos / bitpackingMetadataGroupSize) +
          pos % bitpackingMetadataGroupSize = pos := div_add_mod _ _
      have hmod : pos % bitpackingMetadataGroupSize < bitpackingMetadataGroupSize := mod_lt _ (by decide)
      have hcur := hgrp.loaded.offset_eq
      rw [← hcur] at hgrp hlt hpos hmod
      have hload := hgrp.loaded
      have hwid := hpack.width_le g (mem_of_getElem? hgrp.group)
      have hfits : ∀ k ≤ n + 1, s₁.currentGroupOffset + k ≤ bitpackingMetadataGroupSize →
          s₁.currentGroupOffset + k ≤ g.count := fun k hk hle' => hgrp.add_le hpack (by omega) hle'
      -- what is written are values of the group, and the scan goes on behind them
      have hstep : ∀ (k : ℕ) (s₂ : BitpackingScanState T) (written : ℕ → T.Value), 0 < k → k ≤ n + 1 →
          s₁.currentGroupOffset + k ≤ g.count → s₂.Loaded p data g (s₁.currentGroupOffset + k) →
          s₂.bitpackingMetadataPtr = s₁.bitpackingMetadataPtr →
          (∀ i < k, written (offset + i) = g.value (s₁.currentGroupOffset + i)) →
          (∀ i, i < offset ∨ offset + (n + 1) ≤ i → written i = result i) →
          ∃ s' result', s₂.scanLoop p data fuel written (offset + k) (n + 1 - k) = pure (s', result') ∧
            s'.At p data groups (pos + (n + 1)) ∧ Scanned groups pos result offset (n + 1) result' := by
        intro k s₂ written hk hkn hcnt hload₂ hptr hvals hfrm
        have hat : s₂.At p data groups (pos + k) :=
          ⟨pos / bitpackingMetadataGroupSize, s₁.currentGroupOffset + k, g, by omega, hgrp.group, hcnt, hload₂,
            hptr ▸ hgrp.metadataPtr⟩
        obtain ⟨s', result', hscan, hat', hscanned⟩ := ih written (offset + k) hat
          (by omega : n + 1 - k ≤ fuel) (by omega)
        have hsum : k + (n + 1 - k) = n + 1 := Nat.add_sub_cancel' hkn
        refine ⟨s', result', hscan, ?_, ?_⟩
        · rwa [Nat.add_assoc, hsum] at hat'
        · rw [← hsum] at hfrm ⊢
          refine hscanned.cons (fun i hi => ?_) hfrm
          rw [hvals i hi, ← getElem?_groupValues hpack.chunked hgrp.group (by omega), ← Nat.add_assoc, hpos]
      -- a block of packed values ends with its group at the latest
      have hblks : g.mode = .deltaFor ∨ g.mode = .for_ →
          ∀ k, min (n + 1) (bitpackingAlgorithmGroupSize - s₁.offsetInCompressionGroup) = k →
            0 < k ∧ k ≤ n + 1 ∧ s₁.currentGroupOffset + k ≤ g.count ∧
              ∀ i < k, s₁.scanBlock p data k i = g.value (s₁.currentGroupOffset + i) := by
        intro hmode k hk
        have hoff : s₁.offsetInCompressionGroup = s₁.currentGroupOffset % 32 := rfl
        simp only [bitpackingAlgorithmGroupSize, bitpackingMetadataGroupSize] at hk hmod hfits
        have hcnt := hfits k (by omega) (by omega)
        exact ⟨by omega, by omega, hcnt, fun i hi =>
          scanBlock_spec hload hwid hmode (by omega) hcnt hi⟩
      rw [scanLoop, henter, pure_bind]
      dsimp only
      rw [hload.mode_eq]
      cases g with
      | constant c count =>
        generalize hk : min (n + 1) (bitpackingMetadataGroupSize - s₁.currentGroupOffset) = k
        refine hstep k _ _ (by omega) (by omega) (hfits k (by omega) (by omega))
          (hload.advance k nofun fun _ => rfl) rfl (fun i hi => ?_) fun i hi => fillRows_of_not_mem hi
        rw [fillRows_of_mem (by omega)]
        exact hload.fields
      | constantDelta c frame count =>
        generalize hk : min (n + 1) (bitpackingMetadataGroupSize - s₁.currentGroupOffset) = k
        refine hstep k _ _ (by omega) (by omega) (hfits k (by omega) (by omega))
          (hload.advance k nofun fun _ => rfl) rfl (fun i hi => ?_) fun i hi => copyRows_of_not_mem (by omega)
        rw [copyRows_of_mem hi, hload.fields.1, hload.fields.2]
        rfl
      | deltaFor values width frame deltaOffset count =>
        have hmode : (PackedGroup.deltaFor values width frame deltaOffset count).mode = .deltaFor := rfl
        rw [if_pos hmode]
        generalize hk : min (n + 1) (bitpackingAlgorithmGroupSize - s₁.offsetInCompressionGroup) = k
        obtain ⟨hpos', hle', hcnt, hvals⟩ := hblks (.inl rfl) k hk
        refine hstep k _ _ hpos' hle' hcnt (hload.advance k (fun _ _ => ?_) (by omega)) rfl (fun i hi => ?_)
          fun i hi => copyRows_of_not_mem (by omega)
        · rw [hvals _ (by omega)]
          exact congrArg _ (by omega)
        · rw [copyRows_of_mem hi, hvals i hi]
      | for_ values width frame count =>
        have hmode : (PackedGroup.for_ values width frame count).mode ≠ .deltaFor := nofun
        generalize hk : min (n + 1) (bitpackingAlgorithmGroupSize - s₁.offsetInCompressionGroup) = k
        obtain ⟨hpos', hle', hcnt, hvals⟩ := hblks (.inr rfl) k hk
        refine hstep k _ _ hpos' hle' hcnt (hload.advance k nofun fun _ => rfl) rfl (fun i hi => ?_)
          fun i hi => copyRows_of_not_mem (by omega)
        rw [copyRows_of_mem hi, hvals i hi]

/-! ## Runs of a scan -/

theorem InGroup.at {k offset : ℕ} (h : s.InGroup p data groups k offset g) :
    s.At p data groups (bitpackingMetadataGroupSize * k + offset) := ⟨k, offset, g, rfl, h⟩

theorem new_inGroup (hpack : IsPacked p data groups) (hne : groups ≠ []) (uninitialized : BitpackingScanState T) :
    ∃ s g, new data uninitialized = pure s ∧ s.InGroup p data groups 0 0 g := by
  obtain ⟨g, rest, rfl⟩ := exists_cons_of_ne_nil hne
  obtain ⟨dataEnd, hhead, -, hmeta, -⟩ := hpack.storedIn
  have hlen : (g :: rest).length = rest.length + 1 := length_cons
  obtain ⟨s, hs, hgrp⟩ := loadNextGroup_inGroup hpack (k := 0) (g := g) rfl
    { uninitialized with bitpackingMetadataPtr := data.loadNat 8 0 - 4 } (by
      change data.loadNat 8 0 - 4 + 4 * 1 = _
      omega)
  exact ⟨s, g, hs, hgrp⟩

/-- What a scan of a segment returns when it is behind some rows: the values of the segment. -/
structure Serves (p : BlockPacker T.bits) (data : Memory) (values : List T.Value) (s : BitpackingScanState T)
    (pos : ℕ) : Prop where
  scan : ∀ n result, pos + n ≤ values.length → ∃ s' result', s.scan p data n result = pure (s', result') ∧
    ∀ i < n, values[pos + i]? = some (result' i)
  scanPartial : ∀ n result offset, pos + n ≤ values.length → ∃ s' result',
    s.scanPartial p data n result offset = pure (s', result') ∧
      ∀ i < n, values[pos + i]? = some (result' (offset + i))
  skip : ∀ n, pos + n < values.length → ∃ s', s.skip p data n = pure s'

/-- A call of a reader that stays inside the segment: rows are skipped up to one that can be read. -/
inductive Next (p : BlockPacker T.bits) (data : Memory) (count : ℕ) :
    ℕ × BitpackingScanState T → ℕ × BitpackingScanState T → Prop
  | scan (pos n : ℕ) (s s' : BitpackingScanState T) (result result' : ℕ → T.Value) : pos + n ≤ count →
      s.scan p data n result = pure (s', result') → Next p data count (pos, s) (pos + n, s')
  | scanPartial (pos n : ℕ) (s s' : BitpackingScanState T) (result result' : ℕ → T.Value) (offset : ℕ) :
      pos + n ≤ count → s.scanPartial p data n result offset = pure (s', result') →
        Next p data count (pos, s) (pos + n, s')
  | skip (pos n : ℕ) (s s' : BitpackingScanState T) : pos + n < count → s.skip p data n = pure s' →
      Next p data count (pos, s) (pos + n, s')

/-- A new scan. -/
def IsNew (data : Memory) (p : ℕ × BitpackingScanState T) : Prop :=
  p.1 = 0 ∧ ∃ uninitialized, new data uninitialized = pure p.2

theorem At.next (hpack : IsPacked p data groups) {q q' : ℕ × BitpackingScanState T}
    (hnx : Next p data (groupValues groups).length q q') (h : q.2.At p data groups q.1) :
    q'.2.At p data groups q'.1 := by
  have hinj : ∀ {α : Type} {x y : α}, (pure x : Outcome α) = pure y → x = y := fun h =>
    Except.ok.inj (Option.some.inj h)
  cases hnx with
  | scan pos n s s' result result' hle heq =>
    obtain ⟨s₁, result₁, heq₁, h₁, -⟩ := scanLoop_spec hpack n result 0 h le_rfl hle
    have hs : s' = s₁ := congrArg Prod.fst (hinj (heq.symm.trans heq₁))
    exact hs ▸ h₁
  | scanPartial pos n s s' result result' offset hle heq =>
    obtain ⟨s₁, result₁, heq₁, h₁, -⟩ := scanLoop_spec hpack n result offset h le_rfl hle
    have hs : s' = s₁ := congrArg Prod.fst (hinj (heq.symm.trans heq₁))
    exact hs ▸ h₁
  | skip pos n s s' hlt heq =>
    obtain ⟨s₁, g, heq₁, h₁, -⟩ := h.skip hpack hlt
    have hs : s' = s₁ := hinj (heq.symm.trans heq₁)
    have hat := h₁.at
    rw [div_add_mod] at hat
    exact hs ▸ hat

theorem At.serves (h : s.At p data groups pos) (hpack : IsPacked p data groups) :
    s.Serves p data (groupValues groups) pos where
  scan n result hle := by
    obtain ⟨s', result', heq, -, hscan⟩ := scanLoop_spec hpack n result 0 h le_rfl hle
    refine ⟨s', result', heq, fun i hi => ?_⟩
    rw [hscan.values i hi, Nat.zero_add]
  scanPartial n result offset hle := by
    obtain ⟨s', result', heq, -, hscan⟩ := scanLoop_spec hpack n result offset h le_rfl hle
    exact ⟨s', result', heq, hscan.values⟩
  skip n hlt := by
    obtain ⟨s', g, heq, -⟩ := h.skip hpack hlt
    exact ⟨s', heq⟩

/-- Whatever readers are called, the scan is at the row that they have come to. -/
theorem at_of_reachable (hpack : IsPacked p data groups) (hne : groups ≠ []) {q : ℕ × BitpackingScanState T}
    (hq : Reachable (IsNew data) (Next p data (groupValues groups).length) q) : q.2.At p data groups q.1 := by
  refine hq.invariant (fun q hq => ?_) fun q q' _ h hnx => At.next hpack hnx h
  obtain ⟨hz, uninitialized, hnew⟩ := hq
  obtain ⟨s, g, hs, hgrp⟩ := new_inGroup hpack hne uninitialized
  have hqs : q.2 = s := Except.ok.inj (Option.some.inj (hnew.symm.trans hs))
  rw [hz, hqs]
  exact hgrp.at

end BitpackingScanState

/-! ## Segments that are read -/

section ReadBack

variable {p : BlockPacker T.bits} {blockSize : ℕ} {segment segment' : ColumnSegment}
  {groups : List (PackedGroup T)}

/-- A segment that was written can be read, wherever its bytes are. -/
theorem ColumnSegment.HasGroups.isPacked (h : segment.HasGroups p blockSize groups) (hblk : blockSize ≤ 2 ^ 24)
    (hchunked : IsChunked (groups.map PackedGroup.count)) (hwid : ∀ g ∈ groups, g.width ≤ T.bits)
    (hstor : segment.StoredAs segment') : IsPacked p segment'.data groups := by
  obtain ⟨dataEnd, hhead, hsz, hgrps⟩ := h.storedIn
  have height : bitpackingHeaderSize = 8 := rfl
  have hle := h.size_le
  have hrd : ∀ offset n, offset + n ≤ segment.segmentSize →
      segment'.data.read offset n = segment.data.read offset n := fun offset n hle =>
    Memory.read_congr fun i hi => hstor.data_eq _ ((Nat.add_lt_add_left hi offset).trans_le hle)
  have hend : segment'.data.loadNat 8 0 = segment.segmentSize := by
    rw [Memory.loadNat, hrd 0 8 (by omega)]
    exact h.metadataEnd_eq
  refine ⟨hchunked, hwid, dataEnd, hhead, by omega, hsz.trans hend.symm, fun k g hg => ?_⟩
  rw [hend]
  exact (hgrps k g hg).congr le_rfl (fun offset n _ hoff => hrd offset n (by omega))
    (hrd _ _ (by omega))

/-- A segment has values: wherever its bytes are stored, they are what all readers return, in any order of
    calls. -/
def ColumnSegment.BitpackedAs (p : BlockPacker T.bits) (segment : ColumnSegment) (values : List T.Value) : Prop :=
  ∀ segment', segment.StoredAs segment' → 0 < values.length →
    (∀ uninitialized : BitpackingScanState T, ∃ s, BitpackingScanState.new segment'.data uninitialized = pure s) ∧
    ∀ q : ℕ × BitpackingScanState T, Reachable (BitpackingScanState.IsNew segment'.data)
      (BitpackingScanState.Next p segment'.data values.length) q → q.2.Serves p segment'.data values q.1

theorem IsPacked.bitpackedAs (h : segment.HasGroups p blockSize groups)
    (hpack : ∀ segment', segment.StoredAs segment' → IsPacked p segment'.data groups) :
    segment.BitpackedAs p (groupValues groups) := by
  intro segment' hstor hpos
  have hne : groups ≠ [] := by
    rintro rfl
    exact absurd hpos (Nat.not_lt_zero _)
  refine ⟨fun uninitialized => ?_, fun q hq => ?_⟩
  · obtain ⟨s, g, hs, -⟩ := BitpackingScanState.new_inGroup (hpack segment' hstor) hne uninitialized
    exact ⟨s, hs⟩
  · exact (BitpackingScanState.at_of_reachable (hpack segment' hstor) hne hq).serves (hpack segment' hstor)

end ReadBack

/-! ## Columns -/

section Columns

/-- The value is the one of the row, if it has one. -/
def IsValueOf (x : T.Value) (row : Option T.Value) : Prop := ∀ v, row = some v → x = v

theorem PackedGroup.Packs.isValueOf {rows : List (Option T.Value)} (h : g.Packs rows) :
    List.Forall₂ IsValueOf ((List.range g.count).map g.value) rows := by
  refine forall₂_iff_get.2 ⟨by rw [length_map, length_range, h.count_eq], fun i hi hi' v hv => ?_⟩
  rw [get_eq_getElem, getElem_map, getElem_range]
  refine h.value_eq i v ?_
  rw [List.getElem?_eq_getElem hi', ← hv]
  rfl

variable {chunks : List (List (Option T.Value))}

section

variable {groups : List (PackedGroup T)} (h : List.Forall₂ PackedGroup.Packs groups chunks)

include h

theorem isValueOf_groupValues :
    List.Forall₂ IsValueOf (groupValues groups) chunks.flatten := by
  induction h with
  | nil => exact .nil
  | cons hg _ ih =>
    exact rel_append hg.isValueOf ih

theorem map_count_of_packs : groups.map PackedGroup.count = chunks.map List.length := by
  refine forall₂_eq_eq_eq ▸ ?_
  exact forall₂_map_left_iff.2 (forall₂_map_right_iff.2 (h.imp fun _ _ hg => hg.count_eq))

end

theorem isPacked_parts {p : BlockPacker T.bits} {blockSize : ℕ} (hblk : blockSize ≤ 2 ^ 24)
    {segments : List ColumnSegment} {parts : List (List (PackedGroup T))}
    (hpts : List.Forall₂ (ColumnSegment.HasGroups p blockSize) segments parts)
    (hpacks : List.Forall₂ PackedGroup.Packs parts.flatten chunks) (hchunked : IsChunked (chunks.map List.length)) :
    List.Forall₂ (fun segment part => segment.HasGroups p blockSize part ∧
      ∀ segment', segment.StoredAs segment' → IsPacked p segment'.data part) segments parts := by
  have hpart : ∀ part ∈ parts, IsChunked (part.map PackedGroup.count) ∧ ∀ g ∈ part, g.width ≤ T.bits := by
    intro part hmem
    obtain ⟨before, behind, rfl⟩ := append_of_mem hmem
    rw [← map_count_of_packs hpacks, flatten_append, flatten_cons, map_append, map_append,
      ← append_assoc] at hchunked
    refine ⟨hchunked.middle, fun g hg => ?_⟩
    have hmem' : g ∈ (before ++ part :: behind).flatten := mem_flatten.2 ⟨part, hmem, hg⟩
    obtain ⟨i, hi, rfl⟩ := getElem_of_mem hmem'
    exact (forall₂_iff_get.1 hpacks).2 i hi (hpacks.length_eq ▸ hi) |>.width_le
  have hboth := ((forall₂_and_left _ _).2 ⟨hpart, hpts.flip⟩).flip
  refine hboth.imp fun segment part h => ⟨h.2, fun segment' hstor => ?_⟩
  exact ColumnSegment.HasGroups.isPacked h.2 hblk h.1.1 h.1.2 hstor

/-- The segments written partition the rows of the column in order, and are read back as their values, unless a group
    cannot be packed. -/
theorem bitpackingCompress_readsAs (fastPForLib : ∀ w, BlockPacker w) (T : IntegralType) {blockSize : ℕ}
    (hblock : blockSize ≤ 2 ^ 24) (hsize : T.size * bitpackingMetadataGroupSize * 2 ≤ blockSize)
    (allocate : ℕ → Memory) (compressionBuffer deltaBuffer : ℕ → T.Value) (mode : BitpackingMode) (rowStart : ℕ)
    (vectors : List (List (Option T.Value)))
    (hflush : bitpackingAnalyze compressionBuffer deltaBuffer mode vectors = true) :
    ∃ (segments : List ColumnSegment) (chunks : List (List T.Value)),
      bitpackingCompress (packer fastPForLib T) blockSize allocate compressionBuffer deltaBuffer mode rowStart
        vectors = .ok segments ∧
      List.Forall₂ IsValueOf chunks.flatten vectors.flatten ∧ Consecutive rowStart segments ∧
      List.Forall₂ (fun segment values => segment.count = values.length ∧ segment.segmentSize ≤ blockSize ∧
        segment.BitpackedAs (packer fastPForLib T) values) segments chunks := by
  obtain ⟨segments, parts, chunks, hcompr, hconsec, hpts, hpacks, hchunked, hflat⟩ :=
    written_compress (packer fastPForLib T) hblock hsize allocate compressionBuffer deltaBuffer mode rowStart vectors
  have hvals : (parts.map groupValues).flatten = groupValues parts.flatten := by
    rw [groupValues, ← @flatMap_id _ parts, flatMap_assoc, flatMap_def]
    rfl
  refine ⟨segments, parts.map groupValues, hcompr, ?_, hconsec, ?_⟩
  · rw [hvals, ← hflat hflush]
    exact isValueOf_groupValues hpacks
  · refine forall₂_map_right_iff.2 ((isPacked_parts hblock hpts hpacks hchunked).imp fun segment part h => ?_)
    exact ⟨h.1.count_eq.trans (length_groupValues part).symm, h.1.size_le, IsPacked.bitpackedAs h.1 h.2⟩

/-- A column in two vectors, with a row that has no value. -/
theorem bitpackingCompress_readsAs_int32 : ∃ (segments : List ColumnSegment) (chunks : List (List (BitVec 32))),
    bitpackingCompress (packer streamPacker .int32) 32768 (fun _ _ => 0) (fun _ => 0) (fun _ => 0) .auto 7
      [[some 4, none], [some 9]] = .ok segments ∧
    List.Forall₂ (IsValueOf (T := .int32)) chunks.flatten [some 4, none, some 9] ∧ Consecutive 7 segments ∧
    List.Forall₂ (fun segment values => segment.count = values.length ∧ segment.segmentSize ≤ 32768 ∧
      segment.BitpackedAs (packer streamPacker .int32) values) segments chunks :=
  bitpackingCompress_readsAs streamPacker .int32 (by decide) (by decide) (fun _ _ => 0) (fun _ => 0) (fun _ => 0)
    .auto 7 [[some 4, none], [some 9]] (by decide)

end Columns

end WfOpt

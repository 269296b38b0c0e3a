import WfOpt.Storage.Compression.BitpackingState
import WfOpt.Storage.Compression.RLE

/-!
# Segments of a bitpacked column

The data of the groups grow upwards from the front of a block, and a word for each group, with its mode and where
its data are, grows downwards from the end; when a segment is done, the words are moved next to the data. The
segments have the groups that are handed over, in order (`written_compress`), with the values of the rows, unless
the analysis has found that a group cannot be packed.
-/

namespace WfOpt

open List Nat

/-! ## Metadata -/

namespace BitpackingMode

/-- The number of a mode. -/
def toByte : BitpackingMode → ℕ
  | invalid => 0
  | auto => 1
  | constant => 2
  | constantDelta => 3
  | deltaFor => 4
  | for_ => 5

/-- The mode that has a number. Readers refuse every other number as they refuse `invalid`. -/
def ofByte : ℕ → BitpackingMode
  | 1 => auto
  | 2 => constant
  | 3 => constantDelta
  | 4 => deltaFor
  | 5 => for_
  | _ => invalid

theorem ofByte_toByte (mode : BitpackingMode) : ofByte mode.toByte = mode := by
  cases mode <;> rfl

theorem toByte_lt (mode : BitpackingMode) : mode.toByte < 256 := by
  cases mode <;> decide

end BitpackingMode

/-- `EncodeMeta` -/
def encodeMeta (mode : BitpackingMode) (offset : ℕ) : ℕ := offset ||| mode.toByte <<< 24

/-- `DecodeMeta` -/
def decodeMeta (data : Memory) (metadataPtr : ℕ) : BitpackingMode × ℕ :=
  (.ofByte (data.loadNat 1 (metadataPtr + 3)), data.loadNat 4 metadataPtr &&& 0x00FFFFFF)

theorem encodeMeta_eq (mode : BitpackingMode) {offset : ℕ} (hoff : offset < 2 ^ 24) :
    encodeMeta mode offset = mode.toByte * 2 ^ 24 + offset := by
  rw [encodeMeta, Nat.or_comm, shiftLeft_eq, Nat.mul_comm, ← two_pow_add_eq_or_of_lt hoff]

/-- The mode and the offset are read back, if the offset has at most 24 bits. -/
theorem decodeMeta_eq {data : Memory} {metadataPtr offset : ℕ} {mode : BitpackingMode}
    (h : data.loadNat 4 metadataPtr = encodeMeta mode offset) (hoff : offset < 2 ^ 24) :
    decodeMeta data metadataPtr = (mode, offset) := by
  have hmeta := encodeMeta_eq mode hoff
  have hby : data.loadNat 1 (metadataPtr + 3) = mode.toByte := by
    have hspl : data.loadNat 4 metadataPtr =
        data.loadNat 3 metadataPtr + 256 ^ 3 * data.loadNat 1 (metadataPtr + 3) := by
      rw [Memory.loadNat, Memory.read_add data metadataPtr 3 1, ofLittleEndian_append, Memory.length_read]
      rfl
    have hlow : data.loadNat 3 metadataPtr < 256 ^ 3 := (ofLittleEndian_lt _).trans_eq (by rw [Memory.length_read])
    omega
  have hmask : (0x00FFFFFF : ℕ) = 2 ^ 24 - 1 := by decide
  rw [decodeMeta, hby, BitpackingMode.ofByte_toByte, h, hmeta, hmask, and_two_pow_sub_one_eq_mod,
    Nat.mul_comm, mul_add_mod, mod_eq_of_lt hoff]

/-! ## Groups as bytes -/

namespace PackedGroup

variable {T : IntegralType} (p : BlockPacker T.bits)

/-- The mode of the group. -/
def mode : PackedGroup T → BitpackingMode
  | constant _ _ => .constant
  | constantDelta _ _ _ => .constantDelta
  | deltaFor _ _ _ _ _ => .deltaFor
  | for_ _ _ _ _ => .for_

/-- The data of the group. -/
def bytes : PackedGroup T → List UInt8
  | constant c _ => Storable.toBytes c
  | constantDelta c frame _ => Storable.toBytes frame ++ Storable.toBytes c
  | deltaFor values width frame deltaOffset count =>
    Storable.toBytes frame ++ (Storable.toBytes (BitVec.ofNat T.bits width) ++
      (Storable.toBytes deltaOffset ++ p.packBuffer values count width))
  | for_ values width frame count =>
    Storable.toBytes frame ++ (Storable.toBytes (BitVec.ofNat T.bits width) ++ p.packBuffer values count width)

end PackedGroup

/-! ## Segments -/

/-- `BITPACKING_HEADER_SIZE` -/
abbrev bitpackingHeaderSize : ℕ := 8

/-- `BitpackingCompressionState`: the segments flushed, and the current one, with the offsets of its data and
    metadata. -/
structure BitpackingCompressionState where
  flushed : List ColumnSegment
  start : ℕ
  count : ℕ
  handle : Memory
  dataPtr : ℕ
  metadataPtr : ℕ

namespace BitpackingCompressionState

variable (blockSize : ℕ) (allocate : ℕ → Memory)

/-- `CanStore` -/
def canStore (s : BitpackingCompressionState) (dataBytes metaBytes : ℕ) : Bool :=
  let requiredDataBytes := alignValue 8 dataBytes
  let requiredMetaBytes := blockSize - (s.metadataPtr - s.dataPtr) + metaBytes
  requiredDataBytes + requiredMetaBytes ≤ blockSize - bitpackingHeaderSize

/-- `CreateEmptySegment`: the bytes of the new block are whatever they are. -/
def createEmptySegment (rowStart : ℕ) (flushed : List ColumnSegment) : BitpackingCompressionState where
  flushed := flushed
  start := rowStart
  count := 0
  handle := allocate rowStart
  dataPtr := bitpackingHeaderSize
  metadataPtr := blockSize

/-- `FlushSegment`: the metadata are moved next to the data. -/
def flushSegment (s : BitpackingCompressionState) : Except String (List ColumnSegment) :=
  let unalignedOffset := s.dataPtr
  let metadataOffset := alignValue 8 unalignedOffset
  let metadataSize := blockSize - s.metadataPtr
  let totalSegmentSize := metadataOffset + metadataSize
  if !s.canStore blockSize 0 0 then throw "Error in bitpacking size calculation"
  else
    let cleared := if unalignedOffset ≠ metadataOffset then
        s.handle.memset unalignedOffset 0 (metadataOffset - unalignedOffset)
      else s.handle
    let moved := cleared.memmove metadataOffset s.metadataPtr metadataSize
    return s.flushed ++ [⟨s.start, s.count, moved.storeNat 8 0 (metadataOffset + metadataSize), 0, totalSegmentSize⟩]

/-- `FlushAndCreateSegmentIfFull` -/
def flushAndCreateSegmentIfFull (s : BitpackingCompressionState) (requiredDataBytes requiredMetaBytes : ℕ) :
    Except String BitpackingCompressionState :=
  if !s.canStore blockSize requiredDataBytes requiredMetaBytes then do
    let flushed ← s.flushSegment blockSize
    return createEmptySegment blockSize allocate (s.start + s.count) flushed
  else return s

/-- `ReserveSpace` -/
def reserveSpace (s : BitpackingCompressionState) (dataBytes : ℕ) : Except String BitpackingCompressionState :=
  s.flushAndCreateSegmentIfFull blockSize allocate dataBytes 4

/-- `WriteMetaData` -/
def writeMetaData (s : BitpackingCompressionState) (mode : BitpackingMode) : BitpackingCompressionState := { s with
    metadataPtr := s.metadataPtr - 4
    handle := s.handle.storeNat 4 (s.metadataPtr - 4) (encodeMeta mode (s.dataPtr % 2 ^ 32)) }

/-- `WriteData` -/
def writeData {α : Type*} [Storable α] (s : BitpackingCompressionState) (val : α) : BitpackingCompressionState :=
  { s with handle := s.handle.store s.dataPtr val, dataPtr := s.dataPtr + sizeOfType α }

/-- `PackBuffer` to the data, which go on behind the `bpSize` bytes. -/
def writeBuffer (s : BitpackingCompressionState) (buffer : List UInt8) (bpSize : ℕ) : BitpackingCompressionState :=
  { s with handle := s.handle.write s.dataPtr buffer, dataPtr := s.dataPtr + bpSize }

/-- `UpdateStats`, without the statistics. -/
def updateStats (s : BitpackingCompressionState) (count : ℕ) : BitpackingCompressionState :=
  { s with count := s.count + count }

section Writer

variable {T : IntegralType} (p : BlockPacker T.bits) (s : BitpackingCompressionState)

/-- `WriteConstant` -/
def writeConstant (constant : T.Value) (count : ℕ) : Except String BitpackingCompressionState := do
  let s ← s.reserveSpace blockSize allocate T.size
  return ((s.writeMetaData .constant).writeData constant).updateStats count

/-- `WriteConstantDelta` -/
def writeConstantDelta (constant frameOfReference : T.Value) (count : ℕ) :
    Except String BitpackingCompressionState := do
  let s ← s.reserveSpace blockSize allocate (2 * T.size)
  return (((s.writeMetaData .constantDelta).writeData frameOfReference).writeData constant).updateStats count

/-- `WriteDeltaFor` -/
def writeDeltaFor (values : ℕ → T.Value) (width : ℕ) (frameOfReference deltaOffset : T.Value) (count : ℕ) :
    Except String BitpackingCompressionState := do
  let bpSize := getRequiredSize count width
  let s ← s.reserveSpace blockSize allocate (bpSize + 3 * T.size)
  let s := s.writeMetaData .deltaFor
  let s := ((s.writeData frameOfReference).writeData (BitVec.ofNat T.bits width)).writeData deltaOffset
  return (s.writeBuffer (p.packBuffer values count width) bpSize).updateStats count

/-- `WriteFor` -/
def writeFor (values : ℕ → T.Value) (width : ℕ) (frameOfReference : T.Value) (count : ℕ) :
    Except String BitpackingCompressionState := do
  let bpSize := getRequiredSize count width
  let s ← s.reserveSpace blockSize allocate (bpSize + 2 * T.size)
  let s := s.writeMetaData .for_
  let s := (s.writeData frameOfReference).writeData (BitVec.ofNat T.bits width)
  return (s.writeBuffer (p.packBuffer values count width) bpSize).updateStats count

/-- The writer of a group. -/
def writeGroup : PackedGroup T → Except String BitpackingCompressionState
  | .constant constant count => s.writeConstant blockSize allocate constant count
  | .constantDelta constant frame count => s.writeConstantDelta blockSize allocate constant frame count
  | .deltaFor values width frame deltaOffset count =>
    s.writeDeltaFor blockSize allocate p values width frame deltaOffset count
  | .for_ values width frame count => s.writeFor blockSize allocate p values width frame count

end Writer

end BitpackingCompressionState

/-! ## Segments that are written -/

section Encodes

variable {T : IntegralType} (p : BlockPacker T.bits)

/-- The metadata of a group are at an index, downwards from an offset, and its data end before another. -/
def PackedGroup.StoredIn (data : Memory) (metadataEnd dataEnd k : ℕ) (g : PackedGroup T) : Prop :=
  ∃ offset, bitpackingHeaderSize ≤ offset ∧ offset + (g.bytes p).length ≤ dataEnd ∧
    data.loadNat 4 (metadataEnd - 4 * (k + 1)) = encodeMeta g.mode offset ∧
    data.read offset (g.bytes p).length = g.bytes p

/-- The bytes of a segment are those of groups. -/
structure ColumnSegment.HasGroups (blockSize : ℕ) (segment : ColumnSegment) (groups : List (PackedGroup T)) :
    Prop where
  count_eq : segment.count = (groups.map PackedGroup.count).sum
  size_le : segment.segmentSize ≤ blockSize
  metadataEnd_eq : segment.data.loadNat 8 0 = segment.segmentSize
  storedIn : ∃ dataEnd, bitpackingHeaderSize ≤ dataEnd ∧ dataEnd + 4 * groups.length = segment.segmentSize ∧
    ∀ k (g : PackedGroup T), groups[k]? = some g → g.StoredIn p segment.data segment.segmentSize dataEnd k

variable {p}

theorem PackedGroup.StoredIn.congr {data data' : Memory} {metadataEnd metadataEnd' dataEnd dataEnd' k : ℕ}
    {g : PackedGroup T} (h : g.StoredIn p data metadataEnd dataEnd k) (hle : dataEnd ≤ dataEnd')
    (hdata : ∀ offset n, bitpackingHeaderSize ≤ offset → offset + n ≤ dataEnd →
      data'.read offset n = data.read offset n)
    (hmeta : data'.read (metadataEnd' - 4 * (k + 1)) 4 = data.read (metadataEnd - 4 * (k + 1)) 4) :
    g.StoredIn p data' metadataEnd' dataEnd' k := by
  obtain ⟨offset, hhead, hend, hmode, hbs⟩ := h
  refine ⟨offset, hhead, hend.trans hle, ?_, ?_⟩
  · rw [← hmode, Memory.loadNat, hmeta]
    rfl
  · rw [hdata _ _ hhead hend, hbs]

end Encodes

/-! ### Sizes -/

section Sizes

variable {T : IntegralType} (p : BlockPacker T.bits) (g : PackedGroup T)

theorem length_toBytes_value (x : T.Value) : (Storable.toBytes x).length = T.size := Storable.length_toBytes x

theorem length_bytes_pos : 0 < (g.bytes p).length := by
  have hpos := T.size_pos
  cases g <;> simp only [PackedGroup.bytes, length_append, length_toBytes_value] <;> omega

theorem getRequiredSize_le {count width : ℕ} (hcnt : count ≤ bitpackingMetadataGroupSize)
    (hwid : width ≤ T.bits) : getRequiredSize count width ≤ 2048 * T.size := by
  have hround : roundUpToAlgorithmGroupSize count ≤ 2048 := by
    rw [roundUpToAlgorithmGroupSize]
    simp only [bitpackingMetadataGroupSize, bitpackingAlgorithmGroupSize] at hcnt ⊢
    split <;> omega
  have hmul : roundUpToAlgorithmGroupSize count * width ≤ 2048 * (8 * T.size) := Nat.mul_le_mul hround hwid
  rw [getRequiredSize]
  omega

/-- A group takes about half of what a block has at least. -/
theorem length_bytes_le (hcnt : g.count ≤ bitpackingMetadataGroupSize) (hwid : g.width ≤ T.bits) :
    (g.bytes p).length ≤ 2051 * T.size := by
  cases g with
  | constant c n =>
    rw [PackedGroup.bytes, length_toBytes_value]
    omega
  | constantDelta c frame n =>
    rw [PackedGroup.bytes, length_append, length_toBytes_value, length_toBytes_value]
    omega
  | deltaFor values width frame deltaOffset n | for_ values width frame n =>
    have hsz := getRequiredSize_le hcnt hwid
    dsimp only [PackedGroup.count, PackedGroup.width] at hsz
    simp only [PackedGroup.bytes, length_append, length_toBytes_value, BlockPacker.length_packBuffer]
    omega

end Sizes

namespace BitpackingCompressionState

variable {T : IntegralType} {p : BlockPacker T.bits} {blockSize rowStart : ℕ} {allocate : ℕ → Memory}
  {s : BitpackingCompressionState} {groups : List (PackedGroup T)} {g : PackedGroup T}

/-- Bytes are written to the data. -/
def appendBytes (s : BitpackingCompressionState) (bytes : List UInt8) : BitpackingCompressionState :=
  { s with handle := s.handle.write s.dataPtr bytes, dataPtr := s.dataPtr + bytes.length }

section

variable (s : BitpackingCompressionState)

theorem appendBytes_appendBytes (bytes bytes' : List UInt8) :
    (s.appendBytes bytes).appendBytes bytes' = s.appendBytes (bytes ++ bytes') := by
  rw [appendBytes, appendBytes, appendBytes, Memory.write_write, length_append, Nat.add_assoc]

theorem writeData_eq (x : T.Value) :
    s.writeData x = s.appendBytes (Storable.toBytes x) := by
  rw [appendBytes, length_toBytes_value]
  rfl

theorem writeBuffer_eq (src : ℕ → T.Value) (count width : ℕ) :
    s.writeBuffer (p.packBuffer src count width) (getRequiredSize count width) =
      s.appendBytes (p.packBuffer src count width) := by
  rw [appendBytes, BlockPacker.length_packBuffer]
  rfl

end

/-- A group is put where there is space for it. -/
def put (p : BlockPacker T.bits) (g : PackedGroup T) (s : BitpackingCompressionState) : BitpackingCompressionState :=
  ((s.writeMetaData g.mode).appendBytes (g.bytes p)).updateStats g.count

theorem writeGroup_eq (s : BitpackingCompressionState) (g : PackedGroup T) : s.writeGroup blockSize allocate p g =
      (s.reserveSpace blockSize allocate (g.bytes p).length).map (put p g) := by
  cases g with
  | constant c n =>
    rw [writeGroup, writeConstant, PackedGroup.bytes, length_toBytes_value]
    cases s.reserveSpace blockSize allocate T.size with
    | error e => rfl
    | ok s => exact congrArg (fun s => Except.ok (updateStats s n)) (writeData_eq _ c)
  | constantDelta c frame n =>
    have hsz : (PackedGroup.bytes p (.constantDelta c frame n)).length = 2 * T.size := by
      rw [PackedGroup.bytes, length_append, length_toBytes_value, length_toBytes_value, Nat.two_mul]
    rw [writeGroup, writeConstantDelta, hsz]
    cases s.reserveSpace blockSize allocate (2 * T.size) with
    | error e => rfl
    | ok s =>
      refine congrArg (fun s => Except.ok (updateStats s n)) ?_
      rw [writeData_eq, writeData_eq, appendBytes_appendBytes]
      rfl
  | deltaFor values width frame deltaOffset n =>
    have hsz : (PackedGroup.bytes p (.deltaFor values width frame deltaOffset n)).length =
        getRequiredSize n width + 3 * T.size := by
      simp only [PackedGroup.bytes, length_append, length_toBytes_value, BlockPacker.length_packBuffer]
      ring
    rw [writeGroup, writeDeltaFor, hsz]
    cases s.reserveSpace blockSize allocate (getRequiredSize n width + 3 * T.size) with
    | error e => rfl
    | ok s =>
      refine congrArg (fun s => Except.ok (updateStats s n)) ?_
      rw [writeData_eq, writeData_eq, writeData_eq, writeBuffer_eq, appendBytes_appendBytes,
        appendBytes_appendBytes, appendBytes_appendBytes]
      rfl
  | for_ values width frame n =>
    have hsz : (PackedGroup.bytes p (.for_ values width frame n)).length = getRequiredSize n width + 2 * T.size := by
      simp only [PackedGroup.bytes, length_append, length_toBytes_value, BlockPacker.length_packBuffer]
      ring
    rw [writeGroup, writeFor, hsz]
    cases s.reserveSpace blockSize allocate (getRequiredSize n width + 2 * T.size) with
    | error e => rfl
    | ok s =>
      refine congrArg (fun s => Except.ok (updateStats s n)) ?_
      rw [writeData_eq, writeData_eq, writeBuffer_eq, appendBytes_appendBytes, appendBytes_appendBytes]
      rfl

variable (p) in
/-- The current segment has groups. -/
structure Holds (blockSize : ℕ) (s : BitpackingCompressionState) (groups : List (PackedGroup T)) : Prop where
  count_eq : s.count = (groups.map PackedGroup.count).sum
  metadataPtr_eq : s.metadataPtr + 4 * groups.length = blockSize
  header_le : bitpackingHeaderSize ≤ s.dataPtr
  dataPtr_le : s.dataPtr + bitpackingHeaderSize ≤ s.metadataPtr
  storedIn : ∀ k (g : PackedGroup T), groups[k]? = some g → g.StoredIn p s.handle blockSize s.dataPtr k

theorem Holds.canStore_iff (h : s.Holds p blockSize groups) (dataBytes metaBytes : ℕ) :
    s.canStore blockSize dataBytes metaBytes = true ↔
      s.dataPtr + alignValue 8 dataBytes + 4 * groups.length + metaBytes + bitpackingHeaderSize ≤ blockSize := by
  have hmeta := h.metadataPtr_eq
  have hdata := h.dataPtr_le
  rw [canStore, decide_eq_true_iff]
  omega

theorem holds_createEmptySegment (hblk : 16 ≤ blockSize) (start : ℕ) (flushed : List ColumnSegment) :
    (createEmptySegment blockSize allocate start flushed).Holds p blockSize [] where
  count_eq := rfl
  metadataPtr_eq := rfl
  header_le := le_rfl
  dataPtr_le := hblk
  storedIn _ _ h := nomatch h

theorem Holds.put (h : s.Holds p blockSize groups) (hblk : blockSize ≤ 2 ^ 24) (g : PackedGroup T)
    (hspace : s.canStore blockSize (g.bytes p).length 4 = true) :
    (s.put p g).Holds p blockSize (groups ++ [g]) := by
  have hmeta := h.metadataPtr_eq
  have hhead := h.header_le
  have halign := le_alignValue (by decide : 0 < 8) (g.bytes p).length
  rw [h.canStore_iff] at hspace
  have hlen : (groups ++ [g]).length = groups.length + 1 := length_append
  have hdataPtr : (s.put p g).dataPtr = s.dataPtr + (g.bytes p).length := rfl
  have hmetadataPtr : (s.put p g).metadataPtr = s.metadataPtr - 4 := rfl
  have hhandle : (s.put p g).handle =
      (s.handle.storeNat 4 (s.metadataPtr - 4) (encodeMeta g.mode (s.dataPtr % 2 ^ 32))).write s.dataPtr
        (g.bytes p) := rfl
  refine ⟨?_, ?_, ?_, ?_, ?_⟩
  · rw [map_append, sum_append_nat, ← h.count_eq, map_singleton, sum_singleton]
    rfl
  · omega
  · omega
  · omega
  · intro k g' hg'
    rw [hdataPtr, hhandle]
    rw [getElem?_append] at hg'
    split at hg'
    case isTrue hlt =>
      refine (h.storedIn k g' hg').congr (Nat.le_add_right _ _) (fun offset n hoff hend => ?_) ?_
      · rw [Memory.read_write_of_disjoint _ (.inl hend), Memory.read_storeNat_of_disjoint _ (.inl (by omega))]
      · rw [Memory.read_write_of_disjoint _ (.inr (by omega)), Memory.read_storeNat_of_disjoint _ (.inr (by omega))]
    case isFalse hge =>
      rw [getElem?_singleton] at hg'
      split at hg'
      case isFalse => exact nomatch hg'
      obtain rfl := Option.some.inj hg'
      obtain rfl : k = groups.length := by omega
      have hidx : blockSize - 4 * (groups.length + 1) = s.metadataPtr - 4 := by omega
      refine ⟨s.dataPtr, hhead, le_rfl, ?_, Memory.read_write_self _ _ _⟩
      have hmod : s.dataPtr % 2 ^ 32 = s.dataPtr := mod_eq_of_lt (by omega)
      have hmode := g.mode.toByte_lt
      have hencode := encodeMeta_eq g.mode (by omega : s.dataPtr < 2 ^ 24)
      rw [hidx, Memory.loadNat, Memory.read_write_of_disjoint _ (.inr (by omega)), ← Memory.loadNat, hmod]
      exact Memory.loadNat_storeNat _ (by omega)

/-- The metadata are moved next to the data. -/
theorem Holds.flushSegment (h : s.Holds p blockSize groups) (hblk : blockSize ≤ 2 ^ 24) :
    ∃ segment, s.flushSegment blockSize = .ok (s.flushed ++ [segment]) ∧ segment.start = s.start ∧
      segment.HasGroups p blockSize groups := by
  have hmeta := h.metadataPtr_eq
  have hhead := h.header_le
  have hdata := h.dataPtr_le
  have height : bitpackingHeaderSize = 8 := rfl
  have halign := le_alignValue (by decide : 0 < 8) s.dataPtr
  have halignlt := alignValue_lt (by decide : 0 < 8) s.dataPtr
  have hstore : s.canStore blockSize 0 0 = true := by
    have hz : alignValue 8 0 = 0 := rfl
    rw [h.canStore_iff, hz]
    omega
  have hsz : blockSize - s.metadataPtr = 4 * groups.length := by omega
  rw [BitpackingCompressionState.flushSegment, hstore, hsz]
  generalize hend : alignValue 8 s.dataPtr = dataEnd at halign halignlt
  obtain ⟨cleared, hcleared⟩ : ∃ m, m =
      if s.dataPtr ≠ dataEnd then s.handle.memset s.dataPtr 0 (dataEnd - s.dataPtr) else s.handle := ⟨_, rfl⟩
  rw [← hcleared]
  -- neither the data nor the metadata have been cleared
  have hrd : ∀ offset n, offset + n ≤ s.dataPtr ∨ s.metadataPtr ≤ offset →
      cleared.read offset n = s.handle.read offset n := by
    intro offset n hoff
    rw [hcleared]
    split
    case isTrue => exact Memory.read_memset_of_disjoint _ (hoff.imp_right fun hoff => by omega)
    case isFalse => rfl
  refine ⟨_, rfl, rfl, ⟨h.count_eq, ?_, ?_, dataEnd, ?_, rfl, ?_⟩⟩
  · dsimp only
    omega
  · rw [ColumnSegment.data_mk]
    exact Memory.loadNat_storeNat _ (by omega)
  · omega
  · intro k g hg
    have hk := (List.getElem?_eq_some_iff.1 hg).1
    rw [ColumnSegment.data_mk]
    dsimp only
    refine (h.storedIn k g hg).congr halign (fun offset n hoff hle => ?_) ?_
    · rw [Memory.read_storeNat_of_disjoint _ (.inr (by omega)),
        Memory.read_memmove_of_disjoint _ (.inl (by omega)), hrd _ _ (.inl hle)]
    · have hsrc : blockSize - 4 * (k + 1) = s.metadataPtr + (4 * groups.length - 4 * (k + 1)) := by omega
      have htgt : dataEnd + 4 * groups.length - 4 * (k + 1) = dataEnd + (4 * groups.length - 4 * (k + 1)) := by omega
      rw [Memory.read_storeNat_of_disjoint _ (.inr (by omega)), htgt,
        Memory.read_memmove _ _ _ (by omega), hrd _ _ (.inr (Nat.le_add_right _ _)), hsrc]

variable (p) in
/-- The segments that have been flushed and the current one have the groups. -/
def HasWritten (blockSize rowStart : ℕ) (w : Except String BitpackingCompressionState)
    (groups : List (PackedGroup T)) : Prop :=
  ∃ s parts current, w = .ok s ∧ Consecutive rowStart s.flushed ∧
    List.Forall₂ (ColumnSegment.HasGroups p blockSize) s.flushed parts ∧
    s.start = rowStart + (s.flushed.map ColumnSegment.count).sum ∧ s.Holds p blockSize current ∧
    parts.flatten ++ current = groups

theorem hasWritten_createEmptySegment (hblk : 16 ≤ blockSize) : HasWritten p blockSize rowStart
    (.ok (createEmptySegment blockSize allocate rowStart [])) ([] : List (PackedGroup T)) :=
  ⟨_, [], [], rfl, trivial, .nil, rfl, holds_createEmptySegment hblk rowStart [], rfl⟩

/-- What has been flushed together with the current segment. -/
theorem Holds.flush_consecutive (h : s.Holds p blockSize groups) (hblk : blockSize ≤ 2 ^ 24)
    {parts : List (List (PackedGroup T))} (hconsec : Consecutive rowStart s.flushed)
    (hpts : List.Forall₂ (ColumnSegment.HasGroups p blockSize) s.flushed parts)
    (hst : s.start = rowStart + (s.flushed.map ColumnSegment.count).sum) :
    ∃ segments, s.flushSegment blockSize = .ok segments ∧ Consecutive rowStart segments ∧
      List.Forall₂ (ColumnSegment.HasGroups p blockSize) segments (parts ++ [groups]) ∧
      s.start + s.count = rowStart + (segments.map ColumnSegment.count).sum := by
  obtain ⟨segment, hflush, hseg, hgrps⟩ := h.flushSegment hblk
  refine ⟨_, hflush, hconsec.concat _ (hseg.trans hst), rel_append hpts (.cons hgrps .nil), ?_⟩
  rw [map_append, sum_append_nat, map_singleton, sum_singleton, hgrps.count_eq, ← h.count_eq, ← Nat.add_assoc, hst]

/-- A group is written to the current segment, or to the next one. -/
theorem HasWritten.writeGroup {w : Except String BitpackingCompressionState}
    (h : HasWritten p blockSize rowStart w groups) (hblk : blockSize ≤ 2 ^ 24)
    (hsz : T.size * bitpackingMetadataGroupSize * 2 ≤ blockSize)
    (hcnt : g.count ≤ bitpackingMetadataGroupSize) (hwid : g.width ≤ T.bits) :
    HasWritten p blockSize rowStart (w >>= fun s => s.writeGroup blockSize allocate p g) (groups ++ [g]) := by
  obtain ⟨s, parts, current, rfl, hconsec, hpts, hst, hhld, rfl⟩ := h
  have hpos := T.size_pos
  have hlen := length_bytes_le p g hcnt hwid
  have halign := alignValue_lt (by decide : 0 < 8) (g.bytes p).length
  change T.size * 2048 * 2 ≤ blockSize at hsz
  change HasWritten p blockSize rowStart (s.writeGroup blockSize allocate p g) _
  rw [writeGroup_eq, reserveSpace, flushAndCreateSegmentIfFull]
  by_cases hstore : s.canStore blockSize (g.bytes p).length 4 = true
  · rw [hstore]
    exact ⟨_, parts, _, rfl, hconsec, hpts, hst, hhld.put hblk g hstore, (append_assoc _ _ _).symm⟩
  · obtain ⟨segments, hflush, hconsec', hpts', hst'⟩ := hhld.flush_consecutive hblk hconsec hpts hst
    rw [Bool.eq_false_iff.2 hstore, hflush]
    have hemp : (createEmptySegment blockSize allocate (s.start + s.count) segments).Holds p blockSize
        ([] : List (PackedGroup T)) := holds_createEmptySegment (by omega) _ _
    refine ⟨_, parts ++ [current], _, rfl, hconsec', hpts', hst', hemp.put hblk g ?_, ?_⟩
    · -- an empty segment has space for every group
      rw [hemp.canStore_iff]
      change bitpackingHeaderSize + _ + 0 + 4 + bitpackingHeaderSize ≤ blockSize
      simp only [bitpackingHeaderSize]
      omega
    · rw [flatten_append, flatten_singleton]
      rfl

end BitpackingCompressionState

/-! ## Columns -/

namespace BitpackingState

variable {T : IntegralType} {σ : Type*} (op : PackedGroup T → σ → σ)

/-- `Append`: that a group could not be packed is not reported. -/
def append (p : BitpackingState T × σ) (rows : List (Option T.Value)) : BitpackingState T × σ :=
  rows.foldl (fun p row => ((p.1.update op p.2 row).1, (p.1.update op p.2 row).2.1)) p

/-- `BitpackingAnalyze`: the groups are not written; nothing if one cannot be packed. -/
def analyze (s : BitpackingState T) (rows : List (Option T.Value)) : Option (BitpackingState T) :=
  rows.foldlM (fun s row =>
    let (s, _, success) := s.update (fun _ w => w) () row
    if success then some s else none) s

/-- `BitpackingFinalAnalyze`, without the size. -/
def finalAnalyze (s : BitpackingState T) : Bool := (s.flushTo (fun _ w => w) ()).2.2

/-- The vectors of a column are analyzed as their rows. -/
theorem analyze_flatten (vectors : List (List (Option T.Value))) :
    ∀ s : BitpackingState T, vectors.foldlM analyze s = s.analyze vectors.flatten := by
  induction vectors with
  | nil => exact fun s => rfl
  | cons rows vectors ih =>
    intro s
    have happ : s.analyze (rows ++ vectors.flatten) =
        s.analyze rows >>= fun s => s.analyze vectors.flatten := foldlM_append
    rw [foldlM_cons, flatten_cons, happ]
    exact congrArg (s.analyze rows >>= ·) (funext ih)

/-! ### Groups of a column -/

section Tracks

variable {op} {acc : σ → List (PackedGroup T) → Prop} {keeps : Prop} {p : BitpackingState T × σ}
  {rows pending : List (Option T.Value)} {s : BitpackingState T} {w : σ}

/-- A writer that takes a group has it behind the groups before. -/
def Writes (acc : σ → List (PackedGroup T) → Prop) (op : PackedGroup T → σ → σ) : Prop :=
  ∀ g w groups, g.count ≤ bitpackingMetadataGroupSize → g.width ≤ T.bits → acc w groups →
    acc (op g w) (groups ++ [g])

/-- The groups of a writer are those of full chunks of the rows, and the state has the rest. The rows of a group that
    could not be packed are not kept. -/
def Tracks (acc : σ → List (PackedGroup T) → Prop) (keeps : Prop) (p : BitpackingState T × σ)
    (rows : List (Option T.Value)) : Prop :=
  ∃ groups chunks pending, acc p.2 groups ∧ List.Forall₂ PackedGroup.Packs groups chunks ∧
    (∀ chunk ∈ chunks, chunk.length = bitpackingMetadataGroupSize) ∧ p.1.Gathers pending ∧
    p.1.canDoDelta = false ∧ pending.length < bitpackingMetadataGroupSize ∧
    (keeps → rows = chunks.flatten ++ pending)

theorem flush_eq_none (s : BitpackingState T) (h : s.flush.2.1 = none) :
    s.compressionBufferIdx = 0 ∨ s.flush.2.2 = false := by
  rw [BitpackingState.flush] at h ⊢
  dsimp only at h ⊢
  split at h
  case isTrue hz => exact .inl hz
  case isFalse hz =>
    rw [if_neg hz]
    split_ifs at h ⊢
    exact .inr rfl

/-- The state and the success do not depend on the writer. -/
theorem update_congr {σ' : Type*} (op : PackedGroup T → σ → σ) (op' : PackedGroup T → σ' → σ') (w : σ) (w' : σ')
    (s : BitpackingState T) (row : Option T.Value) : (s.update op w row).1 = (s.update op' w' row).1 ∧
      (s.update op w row).2.2 = (s.update op' w' row).2.2 := by
  rw [update, update]
  split <;> exact ⟨rfl, rfl⟩

/-- The pending rows are handed over. -/
theorem Gathers.flushTo (h : s.Gathers pending) (hop : Writes acc op) (hcan : s.canDoDelta = false)
    (hle : pending.length ≤ bitpackingMetadataGroupSize) {groups : List (PackedGroup T)}
    {chunks : List (List (Option T.Value))} (hacc : acc w groups)
    (hpacks : List.Forall₂ PackedGroup.Packs groups chunks) :
    ∃ groups' chunks', acc (s.flushTo op w).2.1 groups' ∧ List.Forall₂ PackedGroup.Packs groups' chunks' ∧
      (chunks' = chunks ∨ chunks' = chunks ++ [pending] ∧ pending ≠ []) ∧
      ((s.flushTo op w).2.2 = true → chunks'.flatten = chunks.flatten ++ pending) := by
  rw [BitpackingState.flushTo]
  dsimp only
  cases hgrp : s.flush.2.1 with
  | none =>
    refine ⟨groups, chunks, hacc, hpacks, .inl rfl, fun hsuc => ?_⟩
    rcases s.flush_eq_none hgrp with hz | hfail
    · rw [length_eq_zero_iff.1 (h.idx_eq.symm.trans hz), append_nil]
    · rw [hfail] at hsuc
      cases hsuc
  | some g =>
    have hg := h.flush hcan hgrp
    have hne : pending ≠ [] := by
      rintro rfl
      have hz : s.compressionBufferIdx = 0 := h.idx_eq
      rw [BitpackingState.flush, if_pos hz] at hgrp
      cases hgrp
    refine ⟨groups ++ [g], chunks ++ [pending], hop g w groups (hg.count_eq.trans_le hle) hg.width_le hacc,
      rel_append hpacks (.cons hg .nil), .inr ⟨rfl, hne⟩, fun _ => ?_⟩
    rw [flatten_append, flatten_singleton]

theorem Tracks.update (h : Tracks acc keeps p rows) (hop : Writes acc op) (row : Option T.Value) :
    Tracks acc (keeps ∧ (p.1.update op p.2 row).2.2 = true)
      ((p.1.update op p.2 row).1, (p.1.update op p.2 row).2.1) (rows ++ [row]) := by
  obtain ⟨groups, chunks, pending, hacc, hpacks, hfull, hgathers, hcan, hlt, hrs⟩ := h
  have hgathers' := hgathers.updateRow row
  have hlen : (pending ++ [row]).length = pending.length + 1 := length_append
  have hcan' : (p.1.updateRow row).canDoDelta = false := by
    rw [← hcan]
    cases row <;> rfl
  rw [BitpackingState.update]
  by_cases hidx : (p.1.updateRow row).compressionBufferIdx = bitpackingMetadataGroupSize
  · rw [if_pos hidx]
    obtain ⟨groups', chunks', hacc', hpacks', hchks, hflat⟩ := hgathers'.flushTo hop hcan' (by omega) hacc hpacks
    refine ⟨groups', chunks', [], hacc', hpacks', ?_, gathers_reset _, rfl, succ_pos _, ?_⟩
    · rcases hchks with rfl | ⟨rfl, -⟩
      · exact hfull
      · refine forall_mem_append.2 ⟨hfull, forall_mem_singleton.2 ?_⟩
        rw [← hgathers'.idx_eq, hidx]
    · rintro ⟨hkeep, hsuc⟩
      rw [append_nil, hflat hsuc, hrs hkeep, append_assoc]
  · rw [if_neg hidx]
    refine ⟨groups, chunks, pending ++ [row], hacc, hpacks, hfull, hgathers', hcan', ?_, ?_⟩
    · rw [hgathers'.idx_eq] at hidx
      omega
    · rintro ⟨hkeep, -⟩
      rw [hrs hkeep, append_assoc]

theorem Tracks.append (hop : Writes acc op) (rows' : List (Option T.Value)) :
    ∀ {keeps : Prop} {p : BitpackingState T × σ} {rows : List (Option T.Value)}, Tracks acc keeps p rows →
      Tracks acc (keeps ∧ (p.1.analyze rows').isSome = true) (BitpackingState.append op p rows') (rows ++ rows') ∧
        ∀ s, p.1.analyze rows' = some s → (BitpackingState.append op p rows').1 = s := by
  induction rows' with
  | nil =>
    intro keeps p rows h
    refine ⟨?_, fun s hs => Option.some.inj hs⟩
    obtain ⟨groups, chunks, pending, hacc, hpacks, hfull, hgathers, hcan, hlt, hrs⟩ := h
    exact ⟨groups, chunks, pending, hacc, hpacks, hfull, hgathers, hcan, hlt, fun hkeep => by
      rw [append_nil, hrs hkeep.1]⟩
  | cons row rows' ih =>
    intro keeps p rows h
    obtain ⟨hstate, hsuc⟩ := update_congr op (fun _ w => w) p.2 () p.1 row
    obtain ⟨htrack, hend⟩ := ih (h.update hop row)
    have hanalyze : p.1.analyze (row :: rows') =
        if (p.1.update op p.2 row).2.2 then (p.1.update op p.2 row).1.analyze rows' else none := by
      rw [analyze, foldlM_cons, hstate, hsuc]
      dsimp only
      split <;> rfl
    rw [append_cons, hanalyze]
    split
    case isTrue hok =>
      refine ⟨?_, hend⟩
      obtain ⟨groups, chunks, pending, hacc, hpacks, hfull, hgathers, hcan, hlt, hrs⟩ := htrack
      exact ⟨groups, chunks, pending, hacc, hpacks, hfull, hgathers, hcan, hlt, fun hkeep =>
        hrs ⟨⟨hkeep.1, hok⟩, hkeep.2⟩⟩
    case isFalse =>
      refine ⟨?_, fun s hs => nomatch hs⟩
      obtain ⟨groups, chunks, pending, hacc, hpacks, hfull, hgathers, hcan, hlt, -⟩ := htrack
      exact ⟨groups, chunks, pending, hacc, hpacks, hfull, hgathers, hcan, hlt, fun hkeep => nomatch hkeep.2⟩

end Tracks

end BitpackingState

/-- Whether the analysis of a column has found a group that cannot be packed. -/
def bitpackingAnalyze {T : IntegralType} (compressionBuffer deltaBuffer : ℕ → T.Value) (mode : BitpackingMode)
    (vectors : List (List (Option T.Value))) : Bool :=
  match vectors.foldlM BitpackingState.analyze (.new compressionBuffer deltaBuffer mode) with
  | some s => s.finalAnalyze
  | none => false

/-- The segments that are written for a column whose rows are handed over in vectors. -/
def bitpackingCompress {T : IntegralType} (p : BlockPacker T.bits) (blockSize : ℕ) (allocate : ℕ → Memory)
    (compressionBuffer deltaBuffer : ℕ → T.Value) (mode : BitpackingMode) (rowStart : ℕ)
    (vectors : List (List (Option T.Value))) : Except String (List ColumnSegment) :=
  let op := fun g w => w >>= fun s => BitpackingCompressionState.writeGroup blockSize allocate p s g
  let (s, w) := vectors.foldl (BitpackingState.append op)
    (.new compressionBuffer deltaBuffer mode,
      .ok (BitpackingCompressionState.createEmptySegment blockSize allocate rowStart []))
  -- `Finalize`
  let (_, w, _) := s.flushTo op w
  w >>= BitpackingCompressionState.flushSegment blockSize

/-- The sizes of chunks of rows: all are full, except for the last one. -/
structure IsChunked (counts : List ℕ) : Prop where
  pos : ∀ n ∈ counts, 0 < n
  le : ∀ n ∈ counts, n ≤ bitpackingMetadataGroupSize
  eq : ∀ k n, counts[k]? = some n → k + 1 < counts.length → n = bitpackingMetadataGroupSize

variable {counts : List ℕ}

theorem isChunked_of_full (hfull : ∀ n ∈ counts, n = bitpackingMetadataGroupSize) : IsChunked counts where
  pos n hn := (succ_pos _).trans_eq (hfull n hn).symm
  le n hn := (hfull n hn).le
  eq _ n hn _ := hfull n (mem_of_getElem? hn)

theorem isChunked_concat {last : ℕ} (hfull : ∀ n ∈ counts, n = bitpackingMetadataGroupSize)
    (hpos : 0 < last) (hle : last ≤ bitpackingMetadataGroupSize) : IsChunked (counts ++ [last]) where
  pos := forall_mem_append.2 ⟨(isChunked_of_full hfull).pos, forall_mem_singleton.2 hpos⟩
  le := forall_mem_append.2 ⟨(isChunked_of_full hfull).le, forall_mem_singleton.2 hle⟩
  eq k n hn hk := by
    rw [length_append, length_singleton] at hk
    rw [getElem?_append_left (lt_of_succ_lt_succ hk)] at hn
    exact hfull n (mem_of_getElem? hn)

theorem IsChunked.tail {n : ℕ} (h : IsChunked (n :: counts)) : IsChunked counts where
  pos m hm := h.pos m (mem_cons_of_mem _ hm)
  le m hm := h.le m (mem_cons_of_mem _ hm)
  eq k m hm hk := h.eq (k + 1) m hm (succ_lt_succ hk)

/-- Chunks that follow one another among others. -/
theorem IsChunked.middle {before counts behind : List ℕ} (h : IsChunked (before ++ counts ++ behind)) :
    IsChunked counts where
  pos n hn := h.pos n (mem_append_left _ (mem_append_right _ hn))
  le n hn := h.le n (mem_append_left _ (mem_append_right _ hn))
  eq k n hn hk := by
    refine h.eq (before.length + k) n ?_ ?_
    · rw [append_assoc, getElem?_append_right (Nat.le_add_right _ _), Nat.add_sub_cancel_left,
        getElem?_append_left (lt_of_succ_lt hk), hn]
    · rw [length_append, length_append]
      omega

/-- Each row is in the chunk that has its index divided by the size. -/
theorem IsChunked.lt_sum_iff (h : IsChunked counts) (pos : ℕ) : pos < counts.sum ↔
    ∃ n, counts[pos / bitpackingMetadataGroupSize]? = some n ∧ pos % bitpackingMetadataGroupSize < n := by
  induction counts generalizing pos with
  | nil => exact ⟨fun hpos => absurd hpos (Nat.not_lt_zero pos), fun ⟨n, hn, _⟩ => nomatch hn⟩
  | cons first counts ih =>
    have hle := h.le first mem_cons_self
    rw [sum_cons]
    rcases Nat.lt_or_ge pos bitpackingMetadataGroupSize with hlt | hge
    · rw [div_eq_of_lt hlt, mod_eq_of_lt hlt, getElem?_cons_zero]
      refine ⟨fun hpos => ⟨first, rfl, ?_⟩, fun ⟨n, hn, hpos⟩ => ?_⟩
      · cases counts with
        | nil => exact hpos
        | cons second counts =>
          rw [h.eq 0 first rfl (by simp)]
          exact hlt
      · obtain rfl := Option.some.inj hn
        exact Nat.lt_of_lt_of_le hpos (Nat.le_add_right _ _)
    · obtain ⟨r, rfl⟩ := Nat.exists_eq_add_of_le hge
      rw [add_div_left _ (succ_pos _), add_mod_left, getElem?_cons_succ, ← ih h.tail]
      cases counts with
      | nil => simp only [sum_nil]; omega
      | cons second counts =>
        rw [h.eq 0 first rfl (by simp)]
        omega

/-- The groups of the segments have the values of chunks of the rows, unless the analysis has found that a group
    cannot be packed. -/
theorem written_compress {T : IntegralType} (p : BlockPacker T.bits) {blockSize : ℕ} (hblk : blockSize ≤ 2 ^ 24)
    (hsz : T.size * bitpackingMetadataGroupSize * 2 ≤ blockSize) (allocate : ℕ → Memory)
    (compressionBuffer deltaBuffer : ℕ → T.Value) (mode : BitpackingMode) (rowStart : ℕ)
    (vectors : List (List (Option T.Value))) :
    ∃ segments parts chunks,
      bitpackingCompress p blockSize allocate compressionBuffer deltaBuffer mode rowStart vectors = .ok segments ∧
      Consecutive rowStart segments ∧ List.Forall₂ (ColumnSegment.HasGroups p blockSize) segments parts ∧
      List.Forall₂ PackedGroup.Packs parts.flatten chunks ∧ IsChunked (chunks.map length) ∧
      (bitpackingAnalyze compressionBuffer deltaBuffer mode vectors = true → chunks.flatten = vectors.flatten) := by
  have hpos := T.size_pos
  have hmin : 16 ≤ blockSize := by
    change T.size * 2048 * 2 ≤ blockSize at hsz
    omega
  obtain ⟨op, hopeq⟩ : ∃ op : PackedGroup T → Except String BitpackingCompressionState →
      Except String BitpackingCompressionState,
      op = fun g w => w >>= fun s => BitpackingCompressionState.writeGroup blockSize allocate p s g := ⟨_, rfl⟩
  have hop : BitpackingState.Writes (BitpackingCompressionState.HasWritten p blockSize rowStart) op := by
    intro g w groups hcnt hwid h
    rw [hopeq]
    exact h.writeGroup hblk hsz hcnt hwid
  have hnew : BitpackingState.Tracks (BitpackingCompressionState.HasWritten p blockSize rowStart) True
      (BitpackingState.new compressionBuffer deltaBuffer mode,
        .ok (BitpackingCompressionState.createEmptySegment blockSize allocate rowStart [])) [] :=
    ⟨[], [], [], BitpackingCompressionState.hasWritten_createEmptySegment hmin, .nil,
      fun _ h => absurd h not_mem_nil, BitpackingState.gathers_reset _, rfl, succ_pos _, fun _ => rfl⟩
  obtain ⟨htrack, hend⟩ := hnew.append hop vectors.flatten
  obtain ⟨q, hq⟩ : ∃ q, q = BitpackingState.append op (BitpackingState.new compressionBuffer deltaBuffer mode,
      .ok (BitpackingCompressionState.createEmptySegment blockSize allocate rowStart [])) vectors.flatten := ⟨_, rfl⟩
  have hcompr : bitpackingCompress p blockSize allocate compressionBuffer deltaBuffer mode rowStart vectors =
      (q.1.flushTo op q.2).2.1 >>= BitpackingCompressionState.flushSegment blockSize := by
    rw [bitpackingCompress, hq, hopeq, BitpackingState.append, foldl_flatten]
    rfl
  rw [← hq] at htrack hend
  obtain ⟨groups, chunks, pending, hacc, hpacks, hfull, hgathers, hcan, hlt, hrs⟩ := htrack
  obtain ⟨groups', chunks', hacc', hpacks', hchks, hflat⟩ := hgathers.flushTo hop hcan hlt.le hacc hpacks
  obtain ⟨s, parts, current, hs, hconsec, hpts, hst, hhld, rfl⟩ := hacc'
  obtain ⟨segments, hflush, hconsec', hpts', -⟩ := hhld.flush_consecutive hblk hconsec hpts hst
  refine ⟨segments, parts ++ [current], chunks', ?_, hconsec', hpts', ?_, ?_, fun hanalyze => ?_⟩
  · rw [hcompr, hs]
    exact hflush
  · rwa [flatten_append, flatten_singleton]
  · have hfull' : ∀ n ∈ chunks.map length, n = bitpackingMetadataGroupSize := forall_mem_map.2 hfull
    rcases hchks with rfl | ⟨rfl, hne⟩
    · exact isChunked_of_full hfull'
    · rw [map_append]
      exact isChunked_concat hfull' (length_pos_iff.2 hne) hlt.le
  · rw [bitpackingAnalyze, BitpackingState.analyze_flatten] at hanalyze
    split at hanalyze
    case h_1 s' hs' =>
      have hfinal : (q.1.flushTo op q.2).2.2 = true := by
        rw [hend s' hs', ← hanalyze]
        rfl
      rw [hflat hfinal, ← hrs ⟨trivial, by rw [hs']; rfl⟩, nil_append]
    case h_2 => exact nomatch hanalyze

end WfOpt

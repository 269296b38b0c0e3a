import WfOpt.Storage.Compression.BitpackingScan

/-!
# Lookups in bitpacked segments

A row is looked up by a scan that skips to it, and decoded as by a scan, except for the groups of constant
differences: there the position in the group is cast to the type of the values, and a cast that fails leaves what
the memory has been before. As positions are less than 2048, this can only happen for signed values of one byte
(`fetchRow_eq_iff`).
-/

namespace WfOpt

open List Function

variable {T : IntegralType}

/-! ## Lookups -/

/-- `TryCast::Operation` of a position to the type of the values: one that is out of range leaves the result as it
    was. -/
def tryCastPosition (T : IntegralType) (position : ℕ) (uninitialized : T.Value) : T.Value :=
  if (position : ℤ) ≤ numericValue T.isSigned (numericMaximum T.bits T.isSigned) then BitVec.ofNat T.bits position
  else uninitialized

namespace BitpackingScanState

variable (p : BlockPacker T.bits) (data : Memory)

/-- The value of the row that has been skipped to; `multiplier` is what its memory has been before. -/
def fetchValue (s : BitpackingScanState T) (multiplier : T.Value) : T.Value :=
  let offset := s.offsetInCompressionGroup
  let start := s.currentGroupPtr + (s.currentGroupOffset - offset) * s.currentWidth / 8
  match s.currentGroup.1 with
  | .constant => s.currentConstant
  | .constantDelta =>
    let multiplier := tryCastPosition T s.currentGroupOffset multiplier
    multiplier * s.currentConstant + s.currentFrameOfReference
  | mode =>
    let value := s.unPackBlock p data start offset + s.currentFrameOfReference
    if mode = .deltaFor then value + s.currentDeltaOffset else value

/-- `BitpackingFetchRow`: what the fields of the new scan and the multiplier have been is arbitrary. -/
def fetchRow (uninitialized : BitpackingScanState T) (multiplier : T.Value) (rowId : ℕ) (result : ℕ → T.Value)
    (resultIdx : ℕ) : Outcome (ℕ → T.Value) := do
  let s ← new data uninitialized
  let s ← s.skip p data rowId
  return update result resultIdx (s.fetchValue p data multiplier)

end BitpackingScanState

/-! ## Values -/

namespace BitpackingScanState

variable {p : BlockPacker T.bits} {data : Memory} {s : BitpackingScanState T} {g : PackedGroup T} {offset : ℕ}

theorem fetchValue_constantDelta {c frame : T.Value} {count : ℕ}
    (h : s.Loaded p data (.constantDelta c frame count) offset) (multiplier : T.Value) :
    s.fetchValue p data multiplier = tryCastPosition T offset multiplier * c + frame := by
  obtain ⟨hc, hfrm⟩ := h.fields
  rw [fetchValue, h.mode_eq, h.offset_eq]
  dsimp only [PackedGroup.mode]
  rw [hc, hfrm]

/-- The value is that of the group, unless there are differences and the position cannot be cast. -/
theorem fetchValue_spec (h : s.Loaded p data g offset) (hwid : g.width ≤ T.bits) (hoff : offset < g.count)
    (hfits : ∀ c frame count, g = .constantDelta c frame count → c ≠ 0 →
      (offset : ℤ) ≤ numericValue T.isSigned (numericMaximum T.bits T.isSigned)) (multiplier : T.Value) :
    s.fetchValue p data multiplier = g.value offset := by
  have hcur := h.offset_eq
  have hst : s.currentGroupPtr + (s.currentGroupOffset - s.offsetInCompressionGroup) * s.currentWidth / 8 =
      s.decompressionGroupStart := by
    obtain ⟨block, hblk⟩ : ∃ block, block = s.currentGroupOffset / 32 := ⟨_, rfl⟩
    have hmod : s.offsetInCompressionGroup = s.currentGroupOffset % 32 := rfl
    have hspl : s.currentGroupOffset = 32 * block + s.offsetInCompressionGroup := by omega
    have hbef : s.currentGroupOffset - s.offsetInCompressionGroup = 32 * block := by omega
    have hmul : 32 * block * s.currentWidth = 8 * (4 * block * s.currentWidth) := by ring
    have hmul' : s.currentGroupOffset * s.currentWidth =
        8 * (4 * block * s.currentWidth) + s.offsetInCompressionGroup * s.currentWidth := by
      rw [hspl]
      ring
    rw [decompressionGroupStart, hbef, hmul, hmul', Nat.mul_div_cancel_left _ (by decide),
      Nat.mul_add_div (by decide)]
    omega
  cases g with
  | constant c count =>
    rw [fetchValue, h.mode_eq]
    exact h.fields
  | constantDelta c frame count =>
    rw [fetchValue_constantDelta h, PackedGroup.value]
    by_cases hc : c = 0
    · rw [hc, mul_zero, zero_mul]
    · rw [tryCastPosition, if_pos (hfits c frame count rfl hc), mul_comm]
  | deltaFor values width frame deltaOffset count =>
    obtain ⟨hfrm, hbits, hrd, hdlt⟩ := h.fields
    have hmod : s.offsetInCompressionGroup + 0 < 32 := Nat.mod_lt _ (by decide)
    have hval := unPackBlock_spec hbits hwid hrd hmod (hcur.trans_lt hoff)
    rw [Nat.add_zero, Nat.add_zero, hcur] at hval
    rw [fetchValue, hst, h.mode_eq]
    dsimp only [PackedGroup.mode]
    rw [if_pos rfl, hval, hfrm, hdlt, PackedGroup.value, Finset.sum_range_succ]
    ring
  | for_ values width frame count =>
    obtain ⟨hfrm, hbits, hrd⟩ := h.fields
    have hmod : s.offsetInCompressionGroup + 0 < 32 := Nat.mod_lt _ (by decide)
    have hval := unPackBlock_spec hbits hwid hrd hmod (hcur.trans_lt hoff)
    rw [Nat.add_zero, Nat.add_zero, hcur] at hval
    rw [fetchValue, hst, h.mode_eq]
    dsimp only [PackedGroup.mode]
    rw [if_neg (by decide), hval, hfrm]
    rfl

variable {groups : List (PackedGroup T)}

theorem fetchRow_eq (hpack : IsPacked p data groups) {row : ℕ} (hrow : row < (groupValues groups).length)
    (uninitialized : BitpackingScanState T) : ∃ (s : BitpackingScanState T) (g : PackedGroup T),
      s.InGroup p data groups (row / bitpackingMetadataGroupSize) (row % bitpackingMetadataGroupSize) g ∧
      row % bitpackingMetadataGroupSize < g.count ∧ ∀ multiplier result resultIdx,
        fetchRow p data uninitialized multiplier row result resultIdx =
          pure (update result resultIdx (s.fetchValue p data multiplier)) := by
  have hne : groups ≠ [] := by
    rintro rfl
    exact absurd hrow (Nat.not_lt_zero _)
  obtain ⟨s₀, g₀, hnew, hgrp₀⟩ := new_inGroup hpack hne uninitialized
  have hat := hgrp₀.at
  rw [Nat.mul_zero, Nat.add_zero] at hat
  obtain ⟨s, g, hskip, hgrp, hlt⟩ := hat.skip hpack (hrow.trans_le' (Nat.zero_add row).le)
  rw [Nat.zero_add] at hgrp hlt
  refine ⟨s, g, hgrp, hlt, fun multiplier result resultIdx => ?_⟩
  rw [fetchRow, hnew, pure_bind, hskip, pure_bind]

end BitpackingScanState

/-! ## Agreement with scans -/

/-- The group of a row has one difference other than zero between its values. -/
def HasSlope (T : IntegralType) (data : Memory) (row : ℕ) : Prop :=
  let group := decodeMeta data (data.loadNat 8 0 - 4 * (row / bitpackingMetadataGroupSize + 1))
  group.1 = .constantDelta ∧ data.load T.Value (group.2 + T.size) ≠ 0

/-- The lookup of a row returns what every sequence of scans returns for it, whatever the memory has been before. -/
def LookupAgrees (p : BlockPacker T.bits) (segment : ColumnSegment) (row : ℕ) : Prop :=
  ∀ uninitialized multiplier result resultIdx, ∃ x,
    BitpackingScanState.fetchRow p segment.data uninitialized multiplier row result resultIdx =
      pure (update result resultIdx x) ∧
    ∀ q : ℕ × BitpackingScanState T, Reachable (BitpackingScanState.IsNew segment.data)
      (BitpackingScanState.Next p segment.data segment.count) q →
        ∀ n result offset, q.1 ≤ row → row < q.1 + n → q.1 + n ≤ segment.count → ∃ s' result',
          q.2.scanPartial p segment.data n result offset = pure (s', result') ∧ result' (offset + (row - q.1)) = x

section Agreement

variable {p : BlockPacker T.bits} {segment : ColumnSegment} {groups : List (PackedGroup T)} {row : ℕ}
  {g : PackedGroup T}

theorem hasSlope_iff (hpack : IsPacked p segment.data groups)
    (hg : groups[row / bitpackingMetadataGroupSize]? = some g) : HasSlope T segment.data row ↔
      ∃ c frame count, g = .constantDelta c frame count ∧ c ≠ 0 := by
  obtain ⟨dataEnd, hhead, hend, -, hstor⟩ := hpack.storedIn
  obtain ⟨offset, -, hle, hmode, hbs⟩ := hstor _ _ hg
  have hpos := length_bytes_pos p g
  have hmeta := decodeMeta_eq hmode (by omega)
  rw [HasSlope, hmeta]
  cases g with
  | constant c count => exact ⟨fun h => absurd h.1 nofun, fun ⟨_, _, _, h, _⟩ => nomatch h⟩
  | deltaFor values width frame deltaOffset count =>
    exact ⟨fun h => absurd h.1 nofun, fun ⟨_, _, _, h, _⟩ => nomatch h⟩
  | for_ values width frame count => exact ⟨fun h => absurd h.1 nofun, fun ⟨_, _, _, h, _⟩ => nomatch h⟩
  | constantDelta c frame count =>
    obtain ⟨-, hconst⟩ := Memory.read_append hbs
    rw [length_toBytes_value frame] at hconst
    rw [Memory.load_of_read hconst]
    constructor
    · rintro ⟨-, hne⟩
      exact ⟨c, frame, count, rfl, hne⟩
    · rintro ⟨c', frame', count', heq, hne⟩
      obtain ⟨rfl, -, -⟩ := PackedGroup.constantDelta.inj heq
      exact ⟨rfl, hne⟩

/-- Only positions in groups of signed bytes can fail to be cast. -/
theorem numericMaximum_lt_iff {offset : ℕ} (hoff : offset < bitpackingMetadataGroupSize)
    (hcnt : T.isSigned = false → offset < 2 ^ (T.bits - 1)) :
    numericValue T.isSigned (numericMaximum T.bits T.isSigned) < offset ↔ T = .int8 ∧ 128 ≤ offset := by
  obtain ⟨k, hk⟩ : ∃ k, T.bits = k + 1 := ⟨T.bits - 1, by have := T.bits_pos; omega⟩
  have hpow : 2 ^ T.bits = 2 * 2 ^ (T.bits - 1) := by rw [hk, Nat.add_sub_cancel, pow_succ']
  cases hsgn : T.isSigned with
  | false =>
    have hmax := @BitVec.toNat_allOnes T.bits
    have hlt := hcnt hsgn
    have hne : T ≠ .int8 := by
      rintro rfl
      exact nomatch hsgn
    change ((BitVec.allOnes T.bits).toNat : ℤ) < offset ↔ _
    refine ⟨fun h => ?_, fun h => absurd h.1 hne⟩
    omega
  | true =>
    have hmax := @BitVec.toInt_intMax T.bits
    change (BitVec.intMax T.bits).toInt < (offset : ℤ) ↔ _
    rw [hmax]
    by_cases hby : T = .int8
    · subst hby
      have h7 : (2 : ℤ) ^ (IntegralType.int8.bits - 1) = 128 := by decide
      refine ⟨fun h => ⟨rfl, by omega⟩, fun h => by omega⟩
    · have hbits : 16 ≤ T.bits := by
        cases T <;> first | exact absurd rfl hby | exact absurd hsgn Bool.false_ne_true | decide
      have hle : 2 ^ 15 ≤ 2 ^ (T.bits - 1) := Nat.pow_le_pow_right (by decide) (by omega)
      have hcast : ((2 ^ (T.bits - 1) : ℕ) : ℤ) = 2 ^ (T.bits - 1) := Nat.cast_pow 2 _
      simp only [bitpackingMetadataGroupSize] at hoff
      refine ⟨fun h => ?_, fun h => absurd h.1 hby⟩
      omega

/-- The values of the groups are what lookups return, unless a position cannot be cast. -/
theorem lookupAgrees_iff_of_isPacked (hpack : IsPacked p segment.data groups)
    (hcnt : segment.count = (groupValues groups).length) (hrow : row < segment.count)
    (hpacks : ∀ g ∈ groups, ∃ rows, g.Packs rows) : LookupAgrees p segment row ↔
      ¬(T = .int8 ∧ 128 ≤ row % bitpackingMetadataGroupSize ∧ HasSlope T segment.data row) := by
  have hlt : row < (groupValues groups).length := hrow.trans_eq hcnt
  obtain ⟨g, hg, hoff⟩ := BitpackingScanState.exists_group hpack hlt
  have hmem := mem_of_getElem? hg
  have hmod : row % bitpackingMetadataGroupSize < bitpackingMetadataGroupSize := Nat.mod_lt _ (by decide)
  have hne : groups ≠ [] := by
    rintro rfl
    exact nomatch hg
  have hval : (groupValues groups)[row]? = some (g.value (row % bitpackingMetadataGroupSize)) := by
    have h := getElem?_groupValues hpack.chunked hg hoff
    rwa [Nat.div_add_mod] at h
  -- every scan returns the value of the group
  have hscan : ∀ q : ℕ × BitpackingScanState T, Reachable (BitpackingScanState.IsNew segment.data)
      (BitpackingScanState.Next p segment.data segment.count) q →
        ∀ n result offset, q.1 ≤ row → row < q.1 + n → q.1 + n ≤ segment.count → ∃ s' result',
          q.2.scanPartial p segment.data n result offset = pure (s', result') ∧
            result' (offset + (row - q.1)) = g.value (row % bitpackingMetadataGroupSize) := by
    intro q hq n result offset hle hend hn
    rw [hcnt] at hq hn
    obtain ⟨s', result', heq, hvals⟩ :=
      ((BitpackingScanState.at_of_reachable hpack hne hq).serves hpack).scanPartial n result offset hn
    have h := hvals (row - q.1) (by omega)
    rw [Nat.add_sub_cancel' hle, hval] at h
    exact ⟨s', result', heq, (Option.some.inj h).symm⟩
  rw [hasSlope_iff hpack hg]
  constructor
  · rintro hagrees ⟨rfl, hposn, c, frame, count, rfl, hc⟩
    -- the multiplier has been one more than the position
    obtain ⟨multiplier, hmultiplier⟩ : ∃ m : IntegralType.int8.Value,
        m = BitVec.ofNat IntegralType.int8.bits (row % bitpackingMetadataGroupSize) + 1 := ⟨_, rfl⟩
    have hoverrun : numericValue true (numericMaximum 8 true) = 127 := by decide
    obtain ⟨s, g', hgrp, -, hfetch⟩ := BitpackingScanState.fetchRow_eq hpack hlt ⟨(.invalid, 0), 0, 0, 0, 0, 0, 0, 0⟩
    obtain rfl := Option.some.inj (hgrp.group.symm.trans hg)
    obtain ⟨x, hx, hscans⟩ := hagrees ⟨(.invalid, 0), 0, 0, 0, 0, 0, 0, 0⟩ multiplier (fun _ => 0) 0
    obtain ⟨s₀, g₀, hnew, -⟩ := BitpackingScanState.new_inGroup hpack hne ⟨(.invalid, 0), 0, 0, 0, 0, 0, 0, 0⟩
    obtain ⟨s', result', heq, hres⟩ := hscans (0, s₀) (.start ⟨rfl, _, hnew⟩) (row + 1) (fun _ => 0) 0
      (Nat.zero_le _) (by omega) (by omega)
    obtain ⟨s'', result'', heq', hres'⟩ := hscan (0, s₀) (.start ⟨rfl, _, hnew⟩) (row + 1) (fun _ => 0) 0
      (Nat.zero_le _) (by omega) (by omega)
    have hresults : result' = result'' := congrArg Prod.snd (Except.ok.inj (Option.some.inj (heq.symm.trans heq')))
    have hfetched : x = s.fetchValue p segment.data multiplier := by
      have h := congrFun (Except.ok.inj (Option.some.inj (hx.symm.trans (hfetch multiplier (fun _ => 0) 0)))) 0
      rwa [update_self, update_self] at h
    have hcast : tryCastPosition .int8 (row % bitpackingMetadataGroupSize) multiplier = multiplier := by
      refine if_neg ?_
      change ¬(_ ≤ numericValue true (numericMaximum 8 true))
      omega
    rw [hresults, hres', hfetched, BitpackingScanState.fetchValue_constantDelta hgrp.loaded, hcast,
      PackedGroup.value, hmultiplier, mul_comm] at hres
    refine hc ?_
    rw [add_mul, one_mul, add_right_comm] at hres
    exact left_eq_add.1 hres
  · intro hfits uninitialized multiplier result resultIdx
    obtain ⟨s, g', hgrp, -, hfetch⟩ := BitpackingScanState.fetchRow_eq hpack hlt uninitialized
    obtain rfl : g' = g := Option.some.inj (hgrp.group.symm.trans hg)
    have hposn : ∀ c frame count, g' = .constantDelta c frame count → c ≠ 0 →
        ((row % bitpackingMetadataGroupSize : ℕ) : ℤ) ≤ numericValue T.isSigned (numericMaximum T.bits T.isSigned) := by
      intro c frame count hgrp hc
      refine not_lt.1 fun hoverrun => ?_
      obtain ⟨rows, hrs⟩ := hpacks _ hmem
      rw [numericMaximum_lt_iff hmod] at hoverrun
      · exact hfits ⟨hoverrun.1, hoverrun.2, c, frame, count, hgrp, hc⟩
      · intro hsgn
        have hle := hrs.count_le c frame count hgrp hsgn hc
        rw [hgrp] at hoff
        exact hoff.trans_le hle
    refine ⟨_, hfetch multiplier result resultIdx, ?_⟩
    rwa [BitpackingScanState.fetchValue_spec hgrp.loaded (hpack.width_le _ hmem) hoff hposn]

/-- Lookups agree with scans but for the rows behind the first 128 ones of a group of signed bytes with one difference
    other than zero. -/
theorem lookupAgrees_iff (fastPForLib : ∀ w, BlockPacker w) (T : IntegralType) {blockSize : ℕ}
    (hblock : blockSize ≤ 2 ^ 24) (hsize : T.size * bitpackingMetadataGroupSize * 2 ≤ blockSize)
    (allocate : ℕ → Memory) (compressionBuffer deltaBuffer : ℕ → T.Value) (mode : BitpackingMode) (rowStart : ℕ)
    (vectors : List (List (Option T.Value))) :
    ∃ segments, bitpackingCompress (packer fastPForLib T) blockSize allocate compressionBuffer deltaBuffer mode
        rowStart vectors = .ok segments ∧
      ∀ segment ∈ segments, ∀ segment', segment.StoredAs segment' → ∀ row < segment.count,
        (LookupAgrees (packer fastPForLib T) segment' row ↔
          ¬(T = .int8 ∧ 128 ≤ row % bitpackingMetadataGroupSize ∧ HasSlope T segment'.data row)) := by
  obtain ⟨segments, parts, chunks, hcompr, -, hpts, hpacks, hchunked, -⟩ :=
    written_compress (packer fastPForLib T) hblock hsize allocate compressionBuffer deltaBuffer mode rowStart vectors
  refine ⟨segments, hcompr, fun segment hmem segment' hstor row hrow => ?_⟩
  obtain ⟨i, hi, rfl⟩ := getElem_of_mem hmem
  have hboth := isPacked_parts hblock hpts hpacks hchunked
  obtain ⟨hgrps, hpack⟩ := (forall₂_iff_get.1 hboth).2 i hi (hpts.length_eq ▸ hi)
  have hcnt := hstor.count_eq.trans (hgrps.count_eq.trans (length_groupValues _).symm)
  refine lookupAgrees_iff_of_isPacked (hpack segment' hstor) hcnt (hrow.trans_eq hstor.count_eq.symm) ?_
  intro g hg
  have hflat : g ∈ parts.flatten := mem_flatten.2 ⟨_, getElem_mem _, hg⟩
  obtain ⟨k, hk, rfl⟩ := getElem_of_mem hflat
  exact ⟨_, (forall₂_iff_get.1 hpacks).2 k hk (hpacks.length_eq ▸ hk)⟩

/-- The bytes from -127 to 1. -/
def risingBytes : List (Option (BitVec 8)) := (range 129).map fun i => some (BitVec.ofNat 8 (129 + i))

theorem lookupAgrees_iff_risingBytes : ∃ segments,
    bitpackingCompress (packer streamPacker .int8) 16384 (fun _ _ => 0) (fun _ => 0) (fun _ => 0) .auto 0
      [risingBytes] = .ok segments ∧
    ∀ segment ∈ segments, ∀ segment', segment.StoredAs segment' → ∀ row < segment.count,
      (LookupAgrees (packer streamPacker .int8) segment' row ↔
        ¬(IntegralType.int8 = .int8 ∧ 128 ≤ row % bitpackingMetadataGroupSize ∧ HasSlope .int8 segment'.data row)) :=
  lookupAgrees_iff streamPacker .int8 (by decide) (by decide) (fun _ _ => 0) (fun _ => 0) (fun _ => 0) .auto 0
    [risingBytes]

-- The bytes are compressed, then the last one is scanned and looked up.
theorem risingBytes_disagree :
    (match bitpackingCompress (packer streamPacker .int8) 16384 (fun _ _ => 0) (fun _ => 0) (fun _ => 0)
        .auto 0 [risingBytes] with
      | .ok [segment] => segment.count == 129 &&
        (match BitpackingScanState.new segment.data ⟨(.invalid, 0), 0, 0, 0, 0, 0, 0, 0⟩ with
          | some (.ok s) =>
            (match s.scanPartial (packer streamPacker .int8) segment.data 129 (fun _ => 0) 0 with
              | some (.ok (_, result)) => result 128 == 1
              | _ => false) &&
            (match BitpackingScanState.fetchRow (packer streamPacker .int8) segment.data
                ⟨(.invalid, 0), 0, 0, 0, 0, 0, 0, 0⟩ 0 128 (fun _ => 0) 0 with
              | some (.ok result) => result 0 != 1
              | _ => false)
          | _ => false)
      | _ => false) = true := by decide +kernel

/-- The last of these bytes is scanned, but not looked up if the multiplier has been zero. -/
theorem not_lookupAgrees_risingBytes : ∃ segment,
    bitpackingCompress (packer streamPacker .int8) 16384 (fun _ _ => 0) (fun _ => 0) (fun _ => 0) .auto 0
      [risingBytes] = .ok [segment] ∧ segment.count = 129 ∧
    ¬LookupAgrees (packer streamPacker .int8) segment 128 := by
  have hrun := risingBytes_disagree
  split at hrun
  · rename_i segment hcompr
    simp only [Bool.and_eq_true, beq_iff_eq] at hrun
    obtain ⟨hcnt, hrun⟩ := hrun
    refine ⟨segment, hcompr, hcnt, fun hagrees => ?_⟩
    obtain ⟨x, hfetch, hscan⟩ := hagrees ⟨(.invalid, 0), 0, 0, 0, 0, 0, 0, 0⟩ 0 (fun _ => 0) 0
    rw [hfetch] at hrun
    split at hrun
    · rename_i s hnew
      obtain ⟨s', result', heq, hx⟩ := hscan (0, s) (.start ⟨rfl, _, hnew⟩) 129 (fun _ => 0) 0 (by omega) (by omega)
        (by omega)
      rw [heq] at hrun
      simp only [Nat.sub_zero] at hx
      simp [pure, ExceptT.pure, ExceptT.mk, hx] at hrun
    · exact absurd hrun Bool.false_ne_true
  · exact absurd hrun Bool.false_ne_true

end Agreement

end WfOpt

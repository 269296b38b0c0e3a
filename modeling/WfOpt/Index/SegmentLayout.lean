import Mathlib

/-!
# Layouts of fixed-size buffers

A buffer of an index holds segments of one size. In front of them it has a mask with a bit for each segment.
How many segments fit into a block is counted in rounds, of up to 64 segments and the entry of the mask that
they need (`SegmentLayout.fitSegments`): all segments have bits (`fitSegments_le`), and there is one if it
fits at all (`fitSegments_pos`). All but a few sizes keep the segments inside the block
(`ofBlockSize_inside_iff`).
-/

namespace WfOpt

/-- Where the mask and the segments of a buffer are. -/
structure SegmentLayout where
  segmentSize : ℕ
  bitmaskCount : ℕ
  availableSegmentsPerBuffer : ℕ
  available_pos : 0 < availableSegmentsPerBuffer
  available_le : availableSegmentsPerBuffer ≤ 64 * bitmaskCount

namespace SegmentLayout

/-- `bitmask_offset`: the first byte of the segments. -/
def bitmaskOffset (l : SegmentLayout) : ℕ := l.bitmaskCount * 8

/-- The first byte of a segment. -/
def segmentOffset (l : SegmentLayout) (i : ℕ) : ℕ := i * l.segmentSize + l.bitmaskOffset

/-- The remaining bytes of a block are a number of 64 bits, also if the last entry of the mask is behind the
    block. -/
@[irreducible] def remainingBytes (blockSize bytes : ℕ) : ℕ := (blockSize + 2 ^ 64 - bytes) % 2 ^ 64

/-- The rounds that count how many segments fit into a block: `bitmask_count`, `available_segments_per_buffer`,
    `byte_count`. -/
@[simp] def fitSegments (blockSize segmentSize : ℕ) : ℕ → ℕ × ℕ × ℕ → ℕ × ℕ
  | 0, (bitmaskCount, available, _) => (bitmaskCount, available)
  | rounds + 1, (bitmaskCount, available, byteCount) =>
    if byteCount < blockSize then
      let entries := if bitmaskCount = 0 ∨ bitmaskCount * 64 % available = 0 then 1 else 0
      let bytes := byteCount + entries * 8
      let remainingSegments := min (remainingBytes blockSize bytes / segmentSize) 64
      if remainingSegments = 0 then (bitmaskCount + entries, available)
      else fitSegments blockSize segmentSize rounds
        (bitmaskCount + entries, available + remainingSegments, bytes + remainingSegments * segmentSize)
    else (bitmaskCount, available)

/-! ## Rounds -/

theorem remainingBytes_of_le {blockSize bytes : ℕ} (hsize : blockSize < 2 ^ 64) (h : bytes ≤ blockSize) :
    remainingBytes blockSize bytes = blockSize - bytes := by
  rw [remainingBytes]
  omega

/-- If segments are added to a mask, its bits are all in use, and there are bits for them. -/
theorem fits_cases {blockSize segmentSize bitmaskCount available byteCount entries remaining : ℕ}
    (hsize : blockSize < 2 ^ 64) (hpos : 0 < segmentSize)
    (hfull : available = 64 * bitmaskCount ∨ blockSize < byteCount + segmentSize)
    (hfits : byteCount + entries * 8 ≤ blockSize)
    (hents : entries = if bitmaskCount = 0 ∨ bitmaskCount * 64 % available = 0 then 1 else 0)
    (hrem : remaining = min (remainingBytes blockSize (byteCount + entries * 8) / segmentSize) 64)
    (hz : remaining ≠ 0) :
    available = 64 * bitmaskCount ∧ entries = 1 ∧
      (remaining = 64 ∨ blockSize < byteCount + entries * 8 + remaining * segmentSize + segmentSize) := by
  rw [remainingBytes_of_le hsize hfits] at hrem
  rcases hfull with hfull | hfull
  · refine ⟨hfull, ?_, ?_⟩
    · rw [hents, if_pos]
      rw [hfull, Nat.mul_comm, Nat.mod_self]
      exact .inr rfl
    · rcases Nat.lt_or_ge 64 ((blockSize - (byteCount + entries * 8)) / segmentSize) with h | h
      · exact .inl (hrem.trans (min_eq_right h.le))
      · rw [min_eq_left h] at hrem
        have hlt := Nat.lt_mul_div_succ (blockSize - (byteCount + entries * 8)) hpos
        have hmul : segmentSize * (remaining + 1) = remaining * segmentSize + segmentSize := by
          rw [Nat.mul_succ, Nat.mul_comm]
        rw [← hrem, hmul] at hlt
        exact .inr (by omega)
  · -- no other segment fits
    refine absurd ?_ hz
    rw [hrem, Nat.div_eq_of_lt (by omega), Nat.zero_min]

theorem fitSegments_succ {blockSize segmentSize bitmaskCount available byteCount entries remaining : ℕ}
    (rounds : ℕ) (hlt : byteCount < blockSize)
    (hents : entries = if bitmaskCount = 0 ∨ bitmaskCount * 64 % available = 0 then 1 else 0)
    (hrem : remaining = min (remainingBytes blockSize (byteCount + entries * 8) / segmentSize) 64) :
    fitSegments blockSize segmentSize (rounds + 1) (bitmaskCount, available, byteCount) =
      if remaining = 0 then (bitmaskCount + entries, available)
      else fitSegments blockSize segmentSize rounds
        (bitmaskCount + entries, available + remaining, byteCount + entries * 8 + remaining * segmentSize) := by
  rw [fitSegments, if_pos hlt, ← hents]
  dsimp only
  rw [← hrem]

variable {blockSize segmentSize : ℕ}

/-- The segments of a block have bits. In each round, either all bits are in use or another segment does not
    fit. -/
theorem fitSegments_le (hsize : blockSize < 2 ^ 64) (hpos : 0 < segmentSize)
    (rounds bitmaskCount available byteCount : ℕ) (hle : available ≤ 64 * bitmaskCount)
    (hfull : available = 64 * bitmaskCount ∨ blockSize < byteCount + segmentSize) :
    (fitSegments blockSize segmentSize rounds (bitmaskCount, available, byteCount)).2 ≤
      64 * (fitSegments blockSize segmentSize rounds (bitmaskCount, available, byteCount)).1 := by
  induction rounds generalizing bitmaskCount available byteCount with
  | zero => rwa [fitSegments]
  | succ rounds ih =>
    by_cases hlt : byteCount < blockSize
    · obtain ⟨entries, hents⟩ : ∃ entries, entries =
          if bitmaskCount = 0 ∨ bitmaskCount * 64 % available = 0 then 1 else 0 := ⟨_, rfl⟩
      obtain ⟨remaining, hrem⟩ : ∃ remaining, remaining =
          min (remainingBytes blockSize (byteCount + entries * 8) / segmentSize) 64 := ⟨_, rfl⟩
      rw [fitSegments_succ rounds hlt hents hrem]
      by_cases hz : remaining = 0
      · rw [if_pos hz]
        exact hle.trans (Nat.mul_le_mul_left _ (Nat.le_add_right _ _))
      · rw [if_neg hz]
        rcases Nat.lt_or_ge blockSize (byteCount + entries * 8) with hbhd | hfits
        · -- the new entry of the mask is behind the block
          exact ih _ _ _ (by omega) (.inr (by omega))
        · obtain ⟨hall, hent, hnx⟩ := fits_cases hsize hpos hfull hfits hents hrem hz
          exact ih _ _ _ (by omega) (hnx.imp_left fun h => by omega)
    · rwa [fitSegments, if_neg hlt]

theorem le_fitSegments (rounds bitmaskCount available byteCount : ℕ) :
    available ≤ (fitSegments blockSize segmentSize rounds (bitmaskCount, available, byteCount)).2 := by
  induction rounds generalizing bitmaskCount available byteCount with
  | zero => rw [fitSegments]
  | succ rounds ih =>
    by_cases hlt : byteCount < blockSize
    · rw [fitSegments_succ rounds hlt rfl rfl]
      obtain ⟨entries, hents⟩ : ∃ entries, entries =
          if bitmaskCount = 0 ∨ bitmaskCount * 64 % available = 0 then 1 else 0 := ⟨_, rfl⟩
      rw [← hents]
      by_cases hz : min (remainingBytes blockSize (byteCount + entries * 8) / segmentSize) 64 = 0
      · rw [if_pos hz]
      · rw [if_neg hz]
        exact (Nat.le_add_right _ _).trans (ih _ _ _)
    · rw [fitSegments, if_neg hlt]

/-- If a segment is not larger than a block without an entry of a mask, it fits. -/
theorem fitSegments_pos (hsize : blockSize < 2 ^ 64) (hpos : 0 < segmentSize)
    (hle : 8 + segmentSize ≤ blockSize) : 0 < (fitSegments blockSize segmentSize blockSize (0, 0, 0)).2 := by
  obtain ⟨rounds, rfl⟩ : ∃ rounds, blockSize = rounds + 1 := ⟨blockSize - 1, by omega⟩
  have hrem : 0 < min (remainingBytes (rounds + 1) (0 + 1 * 8) / segmentSize) 64 := by
    rw [remainingBytes_of_le hsize (by omega)]
    exact lt_min (Nat.div_pos (by omega) hpos) (by decide)
  rw [@fitSegments_succ (rounds + 1) segmentSize 0 0 0 1 _ rounds (Nat.succ_pos _) (if_pos (.inl rfl)).symm rfl,
    if_neg hrem.ne']
  exact (hrem.trans_le (Nat.le_add_left _ _)).trans_le (le_fitSegments _ _ _ _)

/-- The layout of the buffers of an allocator. Segments that are too large are refused. -/
def ofBlockSize (blockSize segmentSize : ℕ) (hsize : blockSize < 2 ^ 64) (hpos : 0 < segmentSize)
    (hle : 8 + segmentSize ≤ blockSize) : SegmentLayout where
  segmentSize := segmentSize
  bitmaskCount := (fitSegments blockSize segmentSize blockSize (0, 0, 0)).1
  availableSegmentsPerBuffer := (fitSegments blockSize segmentSize blockSize (0, 0, 0)).2
  available_pos := fitSegments_pos hsize hpos hle
  available_le := fitSegments_le hsize hpos blockSize 0 0 0 le_rfl (.inl rfl)

/-! ## Inside the block -/

/-- The rounds after the first one do not leave the block. The bits of a mask with more than one entry are a multiple
    of its segments only if they are all in use; a mask with one entry has the bytes `hrest` for another one. -/
theorem fitSegments_inside (hsize : blockSize < 2 ^ 64) (h8 : 8 ∣ blockSize) (hpos : 0 < segmentSize)
    (rounds : ℕ) {bitmaskCount available byteCount : ℕ} (hcnt : 0 < bitmaskCount)
    (hbytes : byteCount = bitmaskCount * 8 + available * segmentSize) (hle : byteCount ≤ blockSize)
    (hlow : 64 * bitmaskCount < available + 64) (hup : available ≤ 64 * bitmaskCount)
    (hfull : available = 64 * bitmaskCount ∨ blockSize < byteCount + segmentSize)
    (hrest : available < 64 → byteCount < blockSize → 64 % available = 0 → byteCount + 8 ≤ blockSize) :
    (fitSegments blockSize segmentSize rounds (bitmaskCount, available, byteCount)).1 * 8 +
      (fitSegments blockSize segmentSize rounds (bitmaskCount, available, byteCount)).2 * segmentSize ≤
        blockSize := by
  induction rounds generalizing bitmaskCount available byteCount with
  | zero => exact hbytes ▸ hle
  | succ rounds ih =>
    by_cases hlt : byteCount < blockSize
    swap
    · rw [fitSegments, if_neg hlt]
      exact hbytes ▸ hle
    obtain ⟨entries, hents⟩ : ∃ entries, entries =
        if bitmaskCount = 0 ∨ bitmaskCount * 64 % available = 0 then 1 else 0 := ⟨_, rfl⟩
    obtain ⟨remaining, hrem⟩ : ∃ remaining, remaining =
        min (remainingBytes blockSize (byteCount + entries * 8) / segmentSize) 64 := ⟨_, rfl⟩
    have hfits : byteCount + entries * 8 ≤ blockSize := by
      by_cases hent : bitmaskCount = 0 ∨ bitmaskCount * 64 % available = 0
      swap
      · rw [hents, if_neg hent]
        exact hle
      rw [hents, if_pos hent]
      by_cases hall : available = 64 * bitmaskCount
      · -- the bytes in use are a multiple of eight
        have hdvd : 8 ∣ byteCount := by
          rw [hbytes, hall, Nat.mul_assoc]
          exact Nat.dvd_add (Nat.dvd_mul_left 8 _) (Nat.dvd_mul_right_of_dvd (by decide) _)
        omega
      · obtain ⟨q, hq⟩ := Nat.dvd_of_mod_eq_zero (hent.resolve_left (by omega))
        have hq2 : 2 ≤ q := by
          by_contra hq1
          have hq01 : q = 0 ∨ q = 1 := by omega
          rcases hq01 with rfl | rfl <;> omega
        have hhalf : available * 2 ≤ available * q := Nat.mul_le_mul_left _ hq2
        obtain rfl : bitmaskCount = 1 := by omega
        exact hrest (by omega) hlt (hent.resolve_left hcnt.ne')
    rw [fitSegments_succ rounds hlt hents hrem]
    by_cases hz : remaining = 0
    · rw [if_pos hz, Nat.add_mul]
      dsimp only
      omega
    · rw [if_neg hz]
      obtain ⟨hall, rfl, hnx⟩ := fits_cases hsize hpos hfull hfits hents hrem hz
      have h64 : remaining ≤ 64 := hrem ▸ min_le_right _ _
      have hmul : remaining * segmentSize ≤ blockSize - (byteCount + 1 * 8) := by
        rw [← remainingBytes_of_le hsize hfits]
        exact (Nat.mul_le_mul_right _ (hrem ▸ min_le_left _ _)).trans (Nat.div_mul_le_self _ _)
      refine ih (by omega) ?_ ?_ ?_ ?_ (hnx.imp_left ?_) ?_
      · rw [hbytes, Nat.add_mul, Nat.add_mul]
        omega
      all_goals omega

/-- The first round of a block. -/
theorem fitSegments_first (hsize : blockSize < 2 ^ 64) (hle : 8 + segmentSize ≤ blockSize) (rounds : ℕ)
    (hk : 0 < min ((blockSize - 8) / segmentSize) 64) :
    fitSegments blockSize segmentSize (rounds + 1) (0, 0, 0) =
      fitSegments blockSize segmentSize rounds (1, min ((blockSize - 8) / segmentSize) 64,
        8 + min ((blockSize - 8) / segmentSize) 64 * segmentSize) := by
  rw [@fitSegments_succ blockSize segmentSize 0 0 0 1 _ rounds (by omega) (if_pos (.inl rfl)).symm rfl,
    remainingBytes_of_le hsize (by omega), if_neg hk.ne', Nat.zero_add, Nat.zero_add, Nat.zero_add, Nat.one_mul]

/-- The segments of a block are inside it, except if those of the first round nearly fill it, with 1 to 7 bytes left,
    and their number divides 64: the mask then gets an entry that it does not need, with its end behind the block,
    and the bytes that remain are taken for nearly `2 ^ 64`. -/
theorem ofBlockSize_inside_iff (hsize : blockSize < 2 ^ 64) (h8 : 8 ∣ blockSize) (hpos : 0 < segmentSize)
    (hle : 8 + segmentSize ≤ blockSize) :
    (1 ≤ (ofBlockSize blockSize segmentSize hsize hpos hle).availableSegmentsPerBuffer ∧
      (ofBlockSize blockSize segmentSize hsize hpos hle).availableSegmentsPerBuffer ≤
        64 * (ofBlockSize blockSize segmentSize hsize hpos hle).bitmaskCount ∧
      (ofBlockSize blockSize segmentSize hsize hpos hle).bitmaskOffset +
        (ofBlockSize blockSize segmentSize hsize hpos hle).availableSegmentsPerBuffer * segmentSize ≤ blockSize) ↔
    ¬ (64 % ((blockSize - 8) / segmentSize) = 0 ∧ 0 < (blockSize - 8) % segmentSize ∧
      (blockSize - 8) % segmentSize < 8) := by
  have hk : 0 < (blockSize - 8) / segmentSize := Nat.div_pos (by omega) hpos
  have hmin := lt_min hk (by decide : 0 < 64)
  have hdm := Nat.div_add_mod' (blockSize - 8) segmentSize
  obtain ⟨rounds, hrounds⟩ : ∃ rounds, blockSize = rounds + 1 + 1 := ⟨blockSize - 2, by omega⟩
  have hfirst := fitSegments_first hsize hle (rounds + 1) hmin
  rw [← hrounds] at hfirst
  constructor
  · rintro ⟨-, hbits, hin⟩ ⟨hdvd, hL, hL8⟩
    have hk64 := Nat.le_of_dvd (by decide) (Nat.dvd_of_mod_eq_zero hdvd)
    have hmod := Nat.mod_lt (blockSize - 8) hpos
    -- the second round adds a segment
    have hmore : (blockSize - 8) / segmentSize + 1 ≤ (fitSegments blockSize segmentSize blockSize (0, 0, 0)).2 := by
      rw [hfirst, min_eq_left hk64]
      have hrem : 0 < min (remainingBytes blockSize
          (8 + (blockSize - 8) / segmentSize * segmentSize + 1 * 8) / segmentSize) 64 := by
        refine lt_min (Nat.div_pos ?_ hpos) (by decide)
        rw [remainingBytes]
        omega
      rw [@fitSegments_succ blockSize segmentSize 1 _ _ 1 _ rounds (by omega)
        (if_pos (.inr hdvd)).symm rfl, if_neg hrem.ne']
      exact (Nat.add_le_add_left hrem _).trans (le_fitSegments _ _ _ _)
    have hmul := Nat.mul_le_mul_right segmentSize hmore
    rw [Nat.succ_mul] at hmul
    rw [ofBlockSize, bitmaskOffset] at hin
    rw [ofBlockSize] at hbits
    dsimp only at hbits hin
    omega
  · intro hgood
    refine ⟨available_pos _, available_le _, ?_⟩
    rw [ofBlockSize, bitmaskOffset]
    dsimp only
    rw [hfirst]
    rcases Nat.lt_or_ge ((blockSize - 8) / segmentSize) 64 with hlt | hge
    · rw [min_eq_left hlt.le]
      refine fitSegments_inside hsize h8 hpos _ Nat.one_pos (by omega) (by omega) (by omega) (by omega) (.inr ?_) ?_
      · have hmod := Nat.mod_lt (blockSize - 8) hpos
        omega
      · intro _ hbytes hdvd
        by_contra hlst
        exact hgood ⟨hdvd, by omega, by omega⟩
    · rw [min_eq_right hge]
      have hmul := Nat.mul_le_mul_right segmentSize hge
      exact fitSegments_inside hsize h8 hpos _ Nat.one_pos (by omega) (by omega) (by omega) (by omega) (.inl rfl) (by omega)

theorem ofBlockSize_inside_two : 64 % ((32 - 8) / 12) = 0 ∧
    (ofBlockSize 32 12 (by decide) (by decide) (by decide)).bitmaskOffset +
      (ofBlockSize 32 12 (by decide) (by decide) (by decide)).availableSegmentsPerBuffer * 12 ≤ 32 :=
  ⟨rfl, ((ofBlockSize_inside_iff (by decide) (by decide) (by decide) (by decide)).2 (by decide)).2.2⟩

/-- A segment of 13 bytes in a block of 24: there are 65 of them, for one that fits. -/
theorem ofBlockSize_outside : ¬ ∀ blockSize segmentSize : ℕ, ∀ (hsize : blockSize < 2 ^ 64) (hpos : 0 < segmentSize)
      (hle : 8 + segmentSize ≤ blockSize), 8 ∣ blockSize →
      (ofBlockSize blockSize segmentSize hsize hpos hle).bitmaskOffset +
        (ofBlockSize blockSize segmentSize hsize hpos hle).availableSegmentsPerBuffer * segmentSize ≤ blockSize := by
  intro h
  exact absurd (h 24 13 (by decide) (by decide) (by decide) (by decide)) (by decide +kernel)

end SegmentLayout

end WfOpt

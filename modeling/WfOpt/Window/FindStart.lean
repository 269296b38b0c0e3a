import WfOpt.Common.ValidityMask
import WfOpt.Lib.Marks

/-!
# Finding starts

The starts of partitions and of groups of peers are bits of masks. The `n`-th start is looked for from the front of a
range of rows (`findNextStart`) or from the back (`findPrevStart`), with entries skipped that have no start and are
not at the end of the search. They find the marks of the range (`findNextStart_eq`, `findPrevStart_eq`).
-/

namespace WfOpt

open List

namespace ValidityMask

/-! ## The searches -/

/-- Where the loop over the bits of a block leaves, with what is left of `n`: at the start, at the end of the block or
    of the range. -/
inductive Scan
  | found (row n : ℕ)
  | passed (row n : ℕ)

/-- The loop of `FindNextStart` over the bits of a block from `shift` on, of which there are `bits`. -/
def nextInBlock (block : BitVec 64) (r : ℕ) : (bits shift l n : ℕ) → Scan
  | 0, _, l, n => .passed l n
  | bits + 1, shift, l, n =>
    if l < r then
      if block.getLsbD shift then
        if n - 1 = 0 then .found (min l r) 0 else nextInBlock block r bits (shift + 1) (l + 1) (n - 1)
      else nextInBlock block r bits (shift + 1) (l + 1) n
    else .passed l n

/-- The loop of `FindNextStart` over the blocks. It passes a row each time, so that `r - l` times are
    enough. -/
def nextInBlocks (m : ValidityMask) (r : ℕ) : (fuel l n : ℕ) → ℕ × ℕ
  | 0, _, n => (r, n)
  | fuel + 1, l, n =>
    if l < r then
      let block := m.getValidityEntry (l / 64)
      let shift := l % 64
      if block = 0 ∧ shift = 0 then nextInBlocks m r fuel (l + 64) n
      else
        match nextInBlock block r (64 - shift) shift l n with
        | .found row n => (row, n)
        | .passed row n => nextInBlocks m r fuel row n
    else (r, n)

/-- `FindNextStart`: the `n`-th start from `l` on, or `r`, and what is left of `n`. -/
def findNextStart (m : ValidityMask) (l r n : ℕ) : ℕ × ℕ :=
  if m.validityMask.isNone then (min (l + n - 1) r, n - min n (r - l))
  else nextInBlocks m r (r - l) l n

/-- The loop of `FindPrevStart` over the `bits` first bits of a block, backwards. -/
def prevInBlock (block : BitVec 64) (l : ℕ) : (bits r n : ℕ) → Scan
  | 0, r, n => .passed r n
  | shift + 1, r, n =>
    if l < r then
      if block.getLsbD shift then
        if n - 1 = 0 then .found (max l (r - 1)) 0 else prevInBlock block l shift (r - 1) (n - 1)
      else prevInBlock block l shift (r - 1) n
    else .passed r n

/-- The loop of `FindPrevStart` over the blocks. -/
def prevInBlocks (m : ValidityMask) (l : ℕ) : (fuel r n : ℕ) → ℕ × ℕ
  | 0, _, n => (l, n)
  | fuel + 1, r, n =>
    if l < r then
      let block := m.getValidityEntry ((r - 1) / 64)
      let shift := (r - 1) % 64
      if block = 0 ∧ shift + 1 = 64 then prevInBlocks m l fuel (r - 64) n
      else
        match prevInBlock block l (shift + 1) r n with
        | .found row n => (row, n)
        | .passed row n => prevInBlocks m l fuel row n
    else (l, n)

/-- `FindPrevStart`: the `n`-th start before `r`, or `l`, and what is left of `n`. -/
def findPrevStart (m : ValidityMask) (l r n : ℕ) : ℕ × ℕ := if m.validityMask.isNone then
    let start := if r ≤ l + n then l else r - n
    (start, n - (r - start))
  else prevInBlocks m l (r - l) r n

/-! ## Forwards -/

theorem nextInBlock_spec {p : ℕ → Bool} {block : BitVec 64} {r : ℕ} :
    ∀ {bits shift l n : ℕ}, 1 ≤ n → (∀ k < bits, block.getLsbD (shift + k) = p (l + k)) →
      match nextInBlock block r bits shift l n with
      | .found row left => nthMark p l r n = (row, left)
      | .passed row left => nthMark p l r n = nthMark p row r left ∧ 1 ≤ left ∧ (row = l + bits ∨ r ≤ row)
  | 0, _, _, _, hn, _ => ⟨rfl, hn, .inl rfl⟩
  | bits + 1, shift, l, n, hn, hblk => by
    have hbit : block.getLsbD shift = p l := hblk 0 bits.succ_pos
    have hnx : ∀ k < bits, block.getLsbD (shift + 1 + k) = p (l + 1 + k) := by
      intro k hk
      rw [Nat.add_assoc, Nat.add_assoc, Nat.add_comm 1 k]
      exact hblk (k + 1) (Nat.succ_lt_succ hk)
    rw [nextInBlock]
    by_cases hl : l < r
    swap
    · rw [if_neg hl]
      exact ⟨rfl, hn, .inr (not_lt.1 hl)⟩
    rw [if_pos hl, hbit]
    cases hp : p l with
    | true =>
      by_cases hlst : n - 1 = 0
      · obtain rfl : n = 1 := by omega
        rw [if_pos hlst, min_eq_left hl.le]
        exact nthMark_one hl hp
      · rw [if_neg hlst, nthMark_count hl hp (by omega)]
        have ih := nextInBlock_spec (r := r) (n := n - 1) (by omega) hnx
        revert ih
        cases nextInBlock block r bits (shift + 1) (l + 1) (n - 1) with
        | found row left => exact id
        | passed row left => exact fun ih => ⟨ih.1, ih.2.1, ih.2.2.imp_left fun h => by omega⟩
    | false =>
      have hskip : nthMark p l r n = nthMark p (l + 1) r n := by
        refine nthMark_skip l.le_succ fun i h₁ h₂ => ?_
        rwa [show i = l by omega]
      rw [if_neg Bool.false_ne_true, hskip]
      have ih := nextInBlock_spec (r := r) hn hnx
      revert ih
      cases nextInBlock block r bits (shift + 1) (l + 1) n with
      | found row left => exact id
      | passed row left => exact fun ih => ⟨ih.1, ih.2.1, ih.2.2.imp_left fun h => by omega⟩

variable {m : ValidityMask}

/-- The bits of a block are those of its rows. -/
theorem getLsbD_block (l k : ℕ) (hk : k < 64 - l % 64) :
    (m.getValidityEntry (l / 64)).getLsbD (l % 64 + k) = m.rowIsValid (l + k) := by
  have hdiv : (l + k) / 64 = l / 64 := by omega
  have hmod : (l + k) % 64 = l % 64 + k := by omega
  rw [rowIsValid, hdiv, hmod]

theorem nextInBlocks_eq {r : ℕ} : ∀ {fuel l n : ℕ}, 1 ≤ n → r - l ≤ fuel →
    nextInBlocks m r fuel l n = nthMark m.rowIsValid l r n
  | 0, l, n, _, hfuel => (nthMark_of_le (by omega)).symm
  | fuel + 1, l, n, hn, hfuel => by
    rw [nextInBlocks]
    by_cases hl : l < r
    swap
    · rw [if_neg hl, nthMark_of_le (not_lt.1 hl)]
    rw [if_pos hl]
    dsimp only
    by_cases hblank : m.getValidityEntry (l / 64) = 0 ∧ l % 64 = 0
    · -- the whole block has no start
      rw [if_pos hblank, nextInBlocks_eq hn (by omega)]
      refine (nthMark_skip (Nat.le_add_right l 64) fun i h₁ h₂ => ?_).symm
      have hdiv : i / 64 = l / 64 := by omega
      rw [rowIsValid, hdiv, hblank.1]
      exact BitVec.getLsbD_zero
    · rw [if_neg hblank]
      have hspec := nextInBlock_spec (r := r) hn fun k hk => getLsbD_block (m := m) l k hk
      revert hspec
      cases nextInBlock (m.getValidityEntry (l / 64)) r (64 - l % 64) (l % 64) l n with
      | found row left => exact fun hspec => hspec.symm
      | passed row left =>
        rintro ⟨hmark, hlft, hrow⟩
        have hmod : l % 64 < 64 := Nat.mod_lt l (by decide)
        rw [hmark]
        exact nextInBlocks_eq hlft (by omega)

/-- The search forwards finds the marks of the range. -/
theorem findNextStart_eq {l r n : ℕ} (hn : 1 ≤ n) : m.findNextStart l r n = nthMark m.rowIsValid l r n := by
  rw [findNextStart]
  cases hm : m.validityMask with
  | some entries =>
    exact nextInBlocks_eq hn le_rfl
  | none =>
    rw [if_pos (by rfl), nthMark, rowIsValid_of_none hm, marks_true, length_range']
    refine Prod.ext ?_ ?_
    · by_cases h : n - 1 < r - l
      · rw [getElem?_range' h, Option.getD_some, min_eq_left (by omega)]
        omega
      · rw [getElem?_eq_none (by rw [length_range']; omega), Option.getD_none, min_eq_right (by omega)]
    · omega

/-! ## Backwards -/

theorem prevInBlock_spec {p : ℕ → Bool} {block : BitVec 64} {l : ℕ} :
    ∀ {bits r n : ℕ}, 1 ≤ n → (∀ k < bits, block.getLsbD k = p (r - bits + k)) → bits ≤ r →
      match prevInBlock block l bits r n with
      | .found row left => nthMarkBack p l r n = (row, left)
      | .passed row left => nthMarkBack p l r n = nthMarkBack p l row left ∧ 1 ≤ left ∧ (row + bits = r ∨ row ≤ l)
  | 0, _, _, hn, _, _ => ⟨rfl, hn, .inl rfl⟩
  | shift + 1, r, n, hn, hblk, hr => by
    have hbit : block.getLsbD shift = p (r - 1) := by
      rw [hblk shift (Nat.lt_succ_self shift)]
      congr 1
      omega
    have hprev : ∀ k < shift, block.getLsbD k = p (r - 1 - shift + k) := by
      intro k hk
      rw [hblk k (hk.trans (Nat.lt_succ_self shift))]
      congr 1
      omega
    rw [prevInBlock]
    by_cases hl : l < r
    swap
    · rw [if_neg hl]
      exact ⟨rfl, hn, .inr (not_lt.1 hl)⟩
    rw [if_pos hl, hbit]
    cases hp : p (r - 1) with
    | true =>
      by_cases hlst : n - 1 = 0
      · obtain rfl : n = 1 := by omega
        rw [if_pos hlst, max_eq_right (by omega)]
        exact nthMarkBack_one hl hp
      · rw [if_neg hlst, nthMarkBack_count hl hp (by omega)]
        have ih := prevInBlock_spec (l := l) (n := n - 1) (by omega) hprev (by omega)
        revert ih
        cases prevInBlock block l shift (r - 1) (n - 1) with
        | found row left => exact id
        | passed row left => exact fun ih => ⟨ih.1, ih.2.1, ih.2.2.imp_left fun h => by omega⟩
    | false =>
      have hskip : nthMarkBack p l r n = nthMarkBack p l (r - 1) n := by
        refine nthMarkBack_skip (Nat.sub_le r 1) fun i h₁ h₂ => ?_
        rwa [show i = r - 1 by omega]
      rw [if_neg Bool.false_ne_true, hskip]
      have ih := prevInBlock_spec (l := l) hn hprev (by omega)
      revert ih
      cases prevInBlock block l shift (r - 1) n with
      | found row left => exact id
      | passed row left => exact fun ih => ⟨ih.1, ih.2.1, ih.2.2.imp_left fun h => by omega⟩

theorem getLsbD_block_back {r : ℕ} (hr : 0 < r) (k : ℕ) (hk : k < (r - 1) % 64 + 1) :
    (m.getValidityEntry ((r - 1) / 64)).getLsbD k = m.rowIsValid (r - ((r - 1) % 64 + 1) + k) := by
  have hdiv : (r - ((r - 1) % 64 + 1) + k) / 64 = (r - 1) / 64 := by omega
  have hmod : (r - ((r - 1) % 64 + 1) + k) % 64 = k := by omega
  rw [rowIsValid, hdiv, hmod]

theorem prevInBlocks_eq {l : ℕ} : ∀ {fuel r n : ℕ}, 1 ≤ n → r - l ≤ fuel →
    prevInBlocks m l fuel r n = nthMarkBack m.rowIsValid l r n
  | 0, r, n, _, hfuel => (nthMarkBack_of_le (by omega)).symm
  | fuel + 1, r, n, hn, hfuel => by
    rw [prevInBlocks]
    by_cases hl : l < r
    swap
    · rw [if_neg hl, nthMarkBack_of_le (not_lt.1 hl)]
    rw [if_pos hl]
    dsimp only
    by_cases hblank : m.getValidityEntry ((r - 1) / 64) = 0 ∧ (r - 1) % 64 + 1 = 64
    · rw [if_pos hblank, prevInBlocks_eq hn (by omega)]
      refine (nthMarkBack_skip (Nat.sub_le r 64) fun i h₁ h₂ => ?_).symm
      have hdiv : i / 64 = (r - 1) / 64 := by omega
      rw [rowIsValid, hdiv, hblank.1]
      exact BitVec.getLsbD_zero
    · rw [if_neg hblank]
      have hspec := prevInBlock_spec (l := l) hn (fun k hk => getLsbD_block_back (m := m) hl.bot_lt k hk) (by omega)
      revert hspec
      cases prevInBlock (m.getValidityEntry ((r - 1) / 64)) l ((r - 1) % 64 + 1) r n with
      | found row left => exact fun hspec => hspec.symm
      | passed row left =>
        rintro ⟨hmark, hlft, hrow⟩
        rw [hmark]
        exact prevInBlocks_eq hlft (by omega)

theorem findPrevStart_eq {l r n : ℕ} (hn : 1 ≤ n) (hlr : l ≤ r) :
    m.findPrevStart l r n = nthMarkBack m.rowIsValid l r n := by
  rw [findPrevStart]
  cases hm : m.validityMask with
  | some entries =>
    exact prevInBlocks_eq hn le_rfl
  | none =>
    rw [if_pos (by rfl), nthMarkBack, rowIsValid_of_none hm, marks_true, length_range']
    by_cases h : r ≤ l + n
    · rw [if_pos h]
      refine Prod.ext ?_ rfl
      dsimp only
      by_cases heq : n - 1 < r - l
      · rw [getElem?_reverse (by rw [length_range']; exact heq), length_range',
          getElem?_range' (by omega), Option.getD_some]
        omega
      · rw [getElem?_eq_none (by rw [length_reverse, length_range']; omega), Option.getD_none]
    · rw [if_neg h]
      refine Prod.ext ?_ ?_
      · dsimp only
        rw [getElem?_reverse (by rw [length_range']; omega), length_range',
          getElem?_range' (by omega), Option.getD_some]
        omega
      · dsimp only
        omega

/-! ## Numbers of 64 bits -/

/-- The loop of `FindNextStart` over the blocks as it runs, with row numbers of 64 bits and no result in `fuel`
    rounds. -/
def nextRounds (m : ValidityMask) (r : ℕ) : (fuel l n : ℕ) → Option (ℕ × ℕ)
  | 0, _, _ => none
  | fuel + 1, l, n =>
    if l < r then
      if m.getValidityEntry (l / 64) = 0 ∧ l % 64 = 0 then nextRounds m r fuel ((l + 64) % 2 ^ 64) n
      else
        match nextInBlock (m.getValidityEntry (l / 64)) r (64 - l % 64) (l % 64) l n with
        | .found row n => some (row, n)
        | .passed row n => nextRounds m r fuel row n
    else some (r, n)

/-- The loop of `FindPrevStart` over the blocks as it runs. -/
def prevRounds (m : ValidityMask) (l : ℕ) : (fuel r n : ℕ) → Option (ℕ × ℕ)
  | 0, _, _ => none
  | fuel + 1, r, n =>
    if l < r then
      if m.getValidityEntry ((r - 1) / 64) = 0 ∧ (r - 1) % 64 + 1 = 64 then prevRounds m l fuel (r - 64) n
      else
        match prevInBlock (m.getValidityEntry ((r - 1) / 64)) l ((r - 1) % 64 + 1) r n with
        | .found row n => some (row, n)
        | .passed row n => prevRounds m l fuel row n
    else some (l, n)

/-- The branch of `FindNextStart` for a mask without entries. -/
def nextStartAllValid (l r n : ℕ) : ℕ × ℕ := (min ((l + n - 1) % 2 ^ 64) r, n - min n (r - l))

/-- The branch of `FindPrevStart` for a mask without entries. -/
def prevStartAllValid (l r n : ℕ) : ℕ × ℕ :=
  let start := if r ≤ (l + n) % 2 ^ 64 then l else (r + 2 ^ 64 - n) % 2 ^ 64
  (start, (n + (2 ^ 64 + start - r)) % 2 ^ 64)

theorem nextRounds_eq {r : ℕ} (hr : r + 64 ≤ 2 ^ 64) : ∀ {fuel l n : ℕ}, 1 ≤ n → r - l ≤ fuel →
    nextRounds m r (fuel + 1) l n = some (nextInBlocks m r fuel l n)
  | 0, l, n, _, hfuel => if_neg (by omega)
  | fuel + 1, l, n, hn, hfuel => by
    rw [nextRounds, nextInBlocks]
    by_cases hl : l < r
    swap
    · rw [if_neg hl, if_neg hl]
    rw [if_pos hl, if_pos hl, Nat.mod_eq_of_lt (show l + 64 < 2 ^ 64 by omega)]
    dsimp only
    split
    · exact nextRounds_eq hr hn (by omega)
    · have hspec := nextInBlock_spec (r := r) hn fun k hk => getLsbD_block (m := m) l k hk
      revert hspec
      cases nextInBlock (m.getValidityEntry (l / 64)) r (64 - l % 64) (l % 64) l n with
      | found row left => exact fun _ => rfl
      | passed row left =>
        rintro ⟨-, hlft, hrow⟩
        have hmod : l % 64 < 64 := Nat.mod_lt l (by decide)
        exact nextRounds_eq hr hlft (by omega)

theorem prevRounds_eq {l : ℕ} : ∀ {fuel r n : ℕ}, 1 ≤ n → r - l ≤ fuel →
    prevRounds m l (fuel + 1) r n = some (prevInBlocks m l fuel r n)
  | 0, r, n, _, hfuel => if_neg (by omega)
  | fuel + 1, r, n, hn, hfuel => by
    rw [prevRounds, prevInBlocks]
    by_cases hl : l < r
    swap
    · rw [if_neg hl, if_neg hl]
    rw [if_pos hl, if_pos hl]
    dsimp only
    split
    · exact prevRounds_eq hn (by omega)
    · have hspec := prevInBlock_spec (l := l) hn (fun k hk => getLsbD_block_back (m := m) hl.bot_lt k hk) (by omega)
      revert hspec
      cases prevInBlock (m.getValidityEntry ((r - 1) / 64)) l ((r - 1) % 64 + 1) r n with
      | found row left => exact fun _ => rfl
      | passed row left =>
        rintro ⟨-, hlft, hrow⟩
        exact prevRounds_eq hlft (by omega)

/-- The searches return, with the marks of the range. Where all rows are marked, the branches for masks without
    entries do the same. -/
theorem findStart_spec {l r n : ℕ} (hlr : l ≤ r) (hn : 1 ≤ n) (hr : r + 64 ≤ 2 ^ 64) :
    (∀ fuel, r - l < fuel → nextRounds m r fuel l n = some (nthMark m.rowIsValid l r n) ∧
      prevRounds m l fuel r n = some (nthMarkBack m.rowIsValid l r n)) ∧
    ((∀ i, l ≤ i → i < r → m.rowIsValid i = true) → l + n < 2 ^ 64 →
      nextStartAllValid l r n = nthMark m.rowIsValid l r n ∧
      prevStartAllValid l r n = nthMarkBack m.rowIsValid l r n) := by
  constructor
  · intro fuel hfuel
    obtain ⟨fuel, rfl⟩ : ∃ k, fuel = k + 1 := ⟨fuel - 1, by omega⟩
    rw [nextRounds_eq hr hn (by omega), prevRounds_eq hn (by omega), nextInBlocks_eq hn (by omega),
      prevInBlocks_eq hn (by omega)]
    exact ⟨rfl, rfl⟩
  · intro hall hln
    -- the same marks as those of a mask without entries
    have hmarks : marks m.rowIsValid l r = marks new.rowIsValid l r :=
      marks_congr fun i hl hi => by rw [hall i hl hi, rowIsValid_of_none (m := new) rfl]
    have hnext := findNextStart_eq (m := new) (l := l) (r := r) hn
    have hprev := findPrevStart_eq (m := new) hn hlr
    rw [findNextStart, if_pos (by rfl)] at hnext
    rw [findPrevStart, if_pos (by rfl)] at hprev
    rw [nthMark, nthMarkBack, hmarks, ← nthMark, ← nthMarkBack, ← hnext, ← hprev, nextStartAllValid,
      prevStartAllValid, Nat.mod_eq_of_lt (show l + n - 1 < 2 ^ 64 by omega), Nat.mod_eq_of_lt hln]
    refine ⟨rfl, ?_⟩
    dsimp only
    split <;> refine Prod.ext ?_ ?_ <;> dsimp only <;> omega

theorem findStart_spec_ten : nextRounds new 10 11 0 3 = some (nthMark new.rowIsValid 0 10 3) ∧
    prevStartAllValid 0 10 3 = nthMarkBack new.rowIsValid 0 10 3 := by
  have h := findStart_spec (m := new) (Nat.zero_le 10) (show 1 ≤ 3 by decide) (by decide)
  exact ⟨(h.1 11 (by decide)).1, (h.2 (fun i _ _ => by rw [rowIsValid_of_none (m := new) rfl]) (by decide)).2⟩

/-- Behind row 2, the `2 ^ 64 - 1`-th start is found at row 0 if the mask has no entries. -/
theorem nextStartAllValid_ne : ¬ ∀ (m : ValidityMask) (l r n : ℕ), l ≤ r → 1 ≤ n → n < 2 ^ 64 →
    (∀ i, l ≤ i → i < r → m.rowIsValid i = true) →
    nextRounds m r 64 l n = some (nextStartAllValid l r n) := by
  intro h
  have hne := h initialized 2 3 (2 ^ 64 - 1) (by decide) (by decide) (by decide)
    fun i _ _ => rowIsValid_initialized i
  exact absurd hne (by decide)

end ValidityMask

end WfOpt

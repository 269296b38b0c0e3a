import WfOpt.Lib.BalancedParts
import WfOpt.Window.FramedRank

/-!
# Ntile

`ntile(n)` cuts the rows of a partition, or those of the frame in the order of an argument, into `n` buckets of the
same size, up to one row, and gives a row the number of its bucket (`WindowNtileExecutor`).

The position of a row is that of a bucket if it is less than the number of rows (`bucket_mem_iff`), which may be
wrong if the frame is empty or does not have the row (`ntile_inRange_iff`). In a partition, the buckets are its
balanced parts (`ntile_balanced`).
-/

namespace WfOpt

open List Finset

/-! ## The executor -/

/-- What the evaluation of a row may fail with. -/
inductive NtileError
  | invalidArgument
  | castOutOfRange
  | divisionByZero
  deriving DecidableEq

/-- `NumericCast<int64_t>` of an `idx_t`. -/
def castInt64 (n : ℕ) : Except NtileError ℤ := if n < 2 ^ 63 then .ok n else .error .castOutOfRange

/-- The division of `int64_t`. -/
def divide (a b : ℤ) : Except NtileError ℤ := if b = 0 then .error .divisionByZero else .ok (a.tdiv b)

/-- The bucket of a position, given the number of rows and the number of buckets. -/
def bucket (nTotal nParam nSize position : ℤ) : Except NtileError ℤ := let nLarge := nTotal - nParam * nSize
  let iSmall := nLarge * (nSize + 1)
  if position < iSmall then do return 1 + (← divide position (nSize + 1))
  else do return 1 + nLarge + (← divide (position - iSmall) nSize)

namespace OrderedRows

variable {X V : Type*} [LinearOrder V] (P : OrderedRows X V)

/-- `partition_idx`: the position of a row in its frame, with a token tree or without one. -/
def partitionIdx (tokenTree : Option (MergeSortTree ℕ)) (begin stop row : ℕ) : ℕ := match tokenTree with
  | some tree => idxSub (TokenTree.rank tree begin stop row) 1
  | none => idxSub row begin

/-- The bucket of a row for an argument that is not `NULL`. -/
def ntileValue (tokenTree : Option (MergeSortTree ℕ)) (begin stop row : ℕ) (nParam : ℤ) : Except NtileError ℤ :=
  if nParam < 1 then .error .invalidArgument
  else do
    let nTotal ← castInt64 (idxSub stop begin)
    let nParam := if nTotal < nParam then nTotal else nParam
    let nSize ← divide nTotal nParam
    let position ← castInt64 (partitionIdx tokenTree begin stop row)
    bucket nTotal nParam nSize position

/-- `WindowNtileExecutor::EvaluateInternal`, for a row. -/
def ntile (tokenTree : Option (MergeSortTree ℕ)) (begin stop row : ℕ) : Option ℤ → Except NtileError (Option ℤ)
  | none => .ok none
  | some nParam => some <$> ntileValue tokenTree begin stop row nParam

/-- The row has a bucket, whose number is one of the buckets of the argument and of the rows. -/
def NtileInRange (n : ℕ) (begin stop : ℕ) (result : Except NtileError (Option ℤ)) : Prop :=
  ∃ value, result = .ok value ∧ ∀ v ∈ value, 1 ≤ v ∧ v ≤ min n (stop - begin)

/-- Without a token tree, the frame has the row; with one, it has a row that is not before it in the order of the
    argument. -/
def HasPlace (withTree : Bool) (begin stop row : ℕ) : Prop :=
  if withTree then ∃ i, begin ≤ i ∧ i < stop ∧ ¬(P.tokenTree true).sortKey i < (P.tokenTree true).sortKey row
  else begin ≤ row ∧ row < stop

end OrderedRows

/-! ## Buckets -/

/-- The divisions of a bucket are of numbers that are not negative. -/
theorem divide_eq (a : ℕ) {b : ℕ} (hb : 0 < b) : divide a b = .ok ((a / b : ℕ) : ℤ) := by
  rw [divide, if_neg (by omega)]
  exact congrArg Except.ok (Int.ofNat_tdiv a b).symm

theorem bucket_eq (position : ℕ) {total n : ℕ} (hn : 0 < n) (htot : n ≤ total) :
    bucket total n ((total / n : ℕ) : ℤ) position = .ok (1 + (BalancedParts.part total n position : ℤ)) := by
  have hsz : 0 < total / n := Nat.div_pos htot hn
  have hlrg : (total : ℤ) - n * (total / n : ℕ) = (total % n : ℕ) := by
    have hdiv : ((n * (total / n) + total % n : ℕ) : ℤ) = total := congrArg _ (Nat.div_add_mod total n)
    omega
  have hsm : ((total % n : ℕ) : ℤ) * ((total / n : ℕ) + 1) = (BalancedParts.shortStart total n : ℕ) := by
    rfl
  rw [bucket, hlrg, hsm, BalancedParts.part]
  by_cases hcase : position < BalancedParts.shortStart total n
  · -- one of the large buckets
    have hdiv := divide_eq position (Nat.succ_pos (total / n))
    rw [Nat.succ_eq_add_one, Nat.cast_add, Nat.cast_one] at hdiv
    rw [if_pos (by exact_mod_cast hcase), if_pos hcase, hdiv]
    rfl
  · rw [if_neg (by exact_mod_cast hcase), if_neg hcase, ← Nat.cast_sub (not_lt.1 hcase),
      divide_eq _ hsz, Nat.cast_add, ← add_assoc]
    rfl

/-- Positions are in buckets from 1 on, and in one of the `n` buckets if they are less than the number
    of rows. -/
theorem bucket_mem_iff (position : ℕ) {total n : ℕ} (hn : 0 < n) (htot : n ≤ total) :
    ∃ v : ℤ, bucket total n ((total / n : ℕ) : ℤ) position = .ok v ∧ 1 ≤ v ∧ (v ≤ n ↔ position < total) := by
  have hlt : BalancedParts.part total n position < n ↔ position < total := BalancedParts.part_lt_iff hn htot
  refine ⟨_, bucket_eq position hn htot, by omega, ?_⟩
  omega

/-! ## Positions -/

namespace OrderedRows

variable {X V : Type*} [LinearOrder V] {P : OrderedRows X V}

/-- The rows of a frame that satisfy `p` are not all of its rows if one does not. -/
theorem frameCount_lt_iff {p : ℕ → Prop} [DecidablePred p] {begin stop : ℕ} :
    TokenTree.frameCount p begin stop < stop - begin ↔ ∃ i, begin ≤ i ∧ i < stop ∧ ¬p i := by
  have hle : TokenTree.frameCount p begin stop ≤ stop - begin := by
    refine (countP_le_length).trans ?_
    rw [length_range']
  have hall : TokenTree.frameCount p begin stop = stop - begin ↔ ∀ i, begin ≤ i → i < stop → p i := by
    have hlen := countP_eq_length (p := fun i => decide (p i))
      (l := range' begin (stop - begin))
    rw [length_range'] at hlen
    refine hlen.trans ⟨fun h i h₁ h₂ => ?_, fun h i hi => ?_⟩
    · exact of_decide_eq_true (h i (mem_range'_1.2 ⟨h₁, by omega⟩))
    · rw [mem_range'_1] at hi
      exact decide_eq_true (h i hi.1 (by omega))
  rw [lt_iff_le_and_ne, Ne, hall]
  push Not
  exact ⟨fun h => h.2, fun h => ⟨hle, h⟩⟩

/-- The position is that of a row of the frame if the frame has a place for the row. -/
theorem partitionIdx_lt_iff {tokenTree : Option (MergeSortTree ℕ)} (htree : ∀ tree ∈ tokenTree, ∃ rows writes,
      (P.tokenTree true).Wrote rows writes ∧ tree = (P.tokenTree true).build rows writes)
    {begin stop row : ℕ} (hbeg : begin < stop) (hstp : stop ≤ P.count) (hrow : row < P.count) :
    partitionIdx tokenTree begin stop row < stop - begin ↔ P.HasPlace tokenTree.isSome begin stop row := by
  have hcnt := P.count_lt
  cases tokenTree with
  | some tree =>
    obtain ⟨rows, writes, hwrote, rfl⟩ := htree tree rfl
    have hle : TokenTree.frameCount (fun i => (P.tokenTree true).sortKey i < (P.tokenTree true).sortKey row)
        begin stop ≤ stop - begin := by
      refine (countP_le_length).trans ?_
      rw [length_range']
    rw [HasPlace, if_pos (by rfl), ← frameCount_lt_iff, partitionIdx, hwrote.rank_eq hrow hstp]
    generalize TokenTree.frameCount (fun i => (P.tokenTree true).sortKey i < (P.tokenTree true).sortKey row)
      begin stop = before at hle ⊢
    have hsub : 1 + before + idxRange - 1 = before + idxRange := by omega
    rw [idxSub, hsub, Nat.add_mod_right, Nat.mod_eq_of_lt (by omega)]
  | none =>
    rw [partitionIdx, HasPlace, if_neg (by exact Bool.false_ne_true)]
    by_cases hle : begin ≤ row
    · rw [idxSub_of_le hle (hrow.trans hcnt)]
      omega
    · -- the position wraps around
      rw [idxSub, Nat.mod_eq_of_lt (by omega)]
      omega

theorem ntileInRange_some_iff {n begin stop : ℕ} {x : Except NtileError ℤ} :
    NtileInRange n begin stop (some <$> x) ↔ ∃ v : ℤ, x = .ok v ∧ 1 ≤ v ∧ v ≤ min n (stop - begin) := by
  cases x with
  | error e =>
    refine iff_of_false ?_ ?_
    · rintro ⟨value, hval, -⟩
      exact nomatch hval
    · rintro ⟨v, hv, -⟩
      exact nomatch hv
  | ok v =>
    constructor
    · rintro ⟨value, hval, hrng⟩
      obtain rfl := Except.ok.inj hval
      exact ⟨v, rfl, hrng v rfl⟩
    · rintro ⟨v', hv, hrng⟩
      obtain rfl := Except.ok.inj hv
      exact ⟨some v, rfl, fun w hw => Option.some.inj hw ▸ hrng⟩

/-- There are as many buckets as rows, if the argument is larger. -/
theorem nParam_eq (total n : ℕ) : (if (total : ℤ) < n then (total : ℤ) else n) = ((min n total : ℕ) : ℤ) := by
  by_cases hlt : total < n
  · rw [if_pos (by exact_mod_cast hlt), min_eq_right hlt.le]
  · rw [if_neg (by exact_mod_cast hlt), min_eq_left (not_lt.1 hlt)]

/-- A row is evaluated in range if and only if its frame is not empty, has a number of rows of `int64_t`, and has a
    place for the row. -/
theorem ntile_inRange_iff (P : OrderedRows X V) {tokenTree : Option (MergeSortTree ℕ)}
    (htree : ∀ tree ∈ tokenTree, ∃ rows writes,
      (P.tokenTree true).Wrote rows writes ∧ tree = (P.tokenTree true).build rows writes)
    {begin stop row n : ℕ} (hstop : stop ≤ P.count) (hrow : row < P.count) (hn : 1 ≤ n) :
    NtileInRange n begin stop (ntile tokenTree begin stop row (some n)) ↔
      begin < stop ∧ stop - begin < 2 ^ 63 ∧ P.HasPlace tokenTree.isSome begin stop row := by
  have hcnt := P.count_lt
  rw [ntile, ntileInRange_some_iff]
  by_cases hemp : begin < stop
  swap
  · -- the frame is empty
    refine iff_of_false ?_ fun h => hemp h.1
    omega
  have htot : idxSub stop begin = stop - begin := idxSub_of_le hemp.le (by omega)
  rw [ntileValue, if_neg (by omega), htot]
  by_cases hcast : stop - begin < 2 ^ 63
  swap
  · -- the number of rows is out of range
    refine iff_of_false ?_ fun h => hcast h.2.1
    rw [castInt64, if_neg hcast]
    rintro ⟨v, hv, -⟩
    exact nomatch hv
  rw [← partitionIdx_lt_iff htree hemp hstop hrow, castInt64, if_pos hcast]
  have hpos : 0 < min n (stop - begin) := by omega
  simp only [bind, Except.bind, nParam_eq, divide_eq _ hpos]
  by_cases hposn : partitionIdx tokenTree begin stop row < 2 ^ 63
  · obtain ⟨v, hv, hone, hle⟩ := bucket_mem_iff (partitionIdx tokenTree begin stop row) hpos
      (min_le_right n (stop - begin))
    rw [castInt64, if_pos hposn]
    constructor
    · rintro ⟨w, hw, -, hrng⟩
      obtain rfl := Except.ok.inj (hv.symm.trans hw)
      exact ⟨hemp, hcast, hle.1 (by exact_mod_cast hrng)⟩
    · rintro ⟨-, -, hlt⟩
      exact ⟨v, hv, hone, by exact_mod_cast hle.2 hlt⟩
  · rw [castInt64, if_neg hposn]
    refine iff_of_false ?_ fun h => hposn (h.2.2.trans hcast)
    rintro ⟨v, hv, -⟩
    exact nomatch hv

/-- The second of two rows is in the second of two buckets of its partition. -/
theorem ntile_inRange_two : NtileInRange 2 0 2 (ntile none 0 2 1 (some 2)) := by
  refine (ntile_inRange_iff twoOrders ?_ (by decide) (by decide) (by decide)).2 ?_
  · intro tree h
    cases h
  · exact ⟨by decide, by decide, by decide, by decide⟩

/-- There is nothing to divide by in an empty frame, and a row behind its frame is in a second bucket
    of one row. -/
theorem not_ntile_inRange : ntile none 0 0 0 (some 1) = .error .divisionByZero ∧
      ¬NtileInRange 1 0 0 (ntile none 0 0 0 (some 1)) ∧
      ntile none 0 1 1 (some 1) = .ok (some 2) ∧ ¬NtileInRange 1 0 1 (ntile none 0 1 1 (some 1)) := by
  have hemp : ntile none 0 0 0 (some 1) = .error .divisionByZero := by rfl
  have hbhd : ntile none 0 1 1 (some 1) = .ok (some 2) := by rfl
  refine ⟨hemp, ?_, hbhd, ?_⟩
  · rintro ⟨value, hval, -⟩
    exact nomatch hval
  · rintro ⟨value, hval, hrng⟩
    obtain rfl := Except.ok.inj hval
    exact absurd (hrng 2 rfl).2 (by decide)

/-! ## Partitions -/

/-- The number of buckets of a partition. -/
def bucketCount (n begin stop : ℕ) : ℕ := min n (stop - begin)

/-- The rows of a partition in a bucket. -/
def bucketRows (value : ℕ → ℤ) (begin stop : ℕ) (v : ℤ) : Finset ℕ :=
  (Finset.Ico begin stop).filter fun row => value row = v

/-- The numbers of the buckets do not decrease, from 1 on, and all are used; their sizes differ by at most one row,
    the larger ones first. -/
structure BalancedBuckets (value : ℕ → ℤ) (n begin stop : ℕ) : Prop where
  monotone : MonotoneOn value (Set.Ico begin stop)
  first : value begin = 1
  used : ∀ v, (∃ row, begin ≤ row ∧ row < stop ∧ value row = v) ↔ 1 ≤ v ∧ v ≤ bucketCount n begin stop
  size : ∀ v : ℤ, 1 ≤ v → v ≤ bucketCount n begin stop →
    (bucketRows value begin stop v).card = (stop - begin) / bucketCount n begin stop ∨
      (bucketRows value begin stop v).card = (stop - begin) / bucketCount n begin stop + 1
  antitone : ∀ v w : ℤ, 1 ≤ v → v ≤ w → w ≤ bucketCount n begin stop →
    (bucketRows value begin stop w).card ≤ (bucketRows value begin stop v).card

/-- The value of a row in its partition. -/
def partitionBucket (n begin stop row : ℕ) : ℤ :=
  1 + (BalancedParts.part (stop - begin) (bucketCount n begin stop) (row - begin) : ℤ)

/-- Without an argument order, a row of a partition has the bucket of its place. -/
theorem ntile_eq {begin stop row n : ℕ} (hbeg : begin ≤ row) (hrow : row < stop) (hstp : stop < idxRange)
    (hcast : stop - begin < 2 ^ 63) (hn : 1 ≤ n) :
    ntile none begin stop row (some n) = .ok (some (partitionBucket n begin stop row)) := by
  have hpos : 0 < min n (stop - begin) := by omega
  have hposn : row - begin < 2 ^ 63 := by omega
  rw [ntile, ntileValue, if_neg (by omega), partitionIdx, idxSub_of_le (hbeg.trans hrow.le) hstp,
    idxSub_of_le hbeg (hrow.trans hstp), castInt64, castInt64, if_pos hcast, if_pos hposn]
  simp only [bind, Except.bind, nParam_eq, divide_eq _ hpos]
  rw [bucket_eq _ hpos (min_le_right _ _)]
  rfl

theorem card_bucketRows {n begin stop b : ℕ} (hb : b < bucketCount n begin stop) :
    (bucketRows (partitionBucket n begin stop) begin stop (1 + b)).card =
      BalancedParts.length (stop - begin) (bucketCount n begin stop) b := by
  have hpos : 0 < bucketCount n begin stop := Nat.zero_lt_of_lt hb
  rw [← BalancedParts.card_part hpos (min_le_right _ _) hb]
  refine Finset.card_bij' (fun row _ => row - begin) (fun i _ => begin + i) ?_ ?_ ?_ ?_
  · intro row hrow
    obtain ⟨hmem, hbucket⟩ := Finset.mem_filter.1 hrow
    rw [partitionBucket] at hbucket
    have hrng := Finset.mem_Ico.1 hmem
    exact Finset.mem_filter.2 ⟨Finset.mem_range.2 (Nat.sub_lt_sub_right hrng.1 hrng.2), by omega⟩
  · intro i hi
    obtain ⟨hmem, hpart⟩ := Finset.mem_filter.1 hi
    have hrng := Finset.mem_range.1 hmem
    refine Finset.mem_filter.2 ⟨Finset.mem_Ico.2 ⟨Nat.le_add_right _ _, by omega⟩, ?_⟩
    rw [partitionBucket, Nat.add_sub_cancel_left, hpart]
  · intro row hrow
    exact Nat.add_sub_cancel' (Finset.mem_Ico.1 (Finset.mem_filter.1 hrow).1).1
  · intro i hi
    exact Nat.add_sub_cancel_left begin i

theorem balancedBuckets_partitionBucket {n begin stop : ℕ} (hbeg : begin < stop) (hn : 1 ≤ n) :
    BalancedBuckets (partitionBucket n begin stop) n begin stop := by
  have hpos : 0 < bucketCount n begin stop := by
    rw [bucketCount]
    omega
  have hle : bucketCount n begin stop ≤ stop - begin := min_le_right _ _
  -- a bucket is a part
  have hpart : ∀ v : ℤ, 1 ≤ v → v ≤ bucketCount n begin stop → ∃ b < bucketCount n begin stop, v = 1 + (b : ℤ) := by
    intro v hone hv
    exact ⟨(v - 1).toNat, by omega, by omega⟩
  refine
    { monotone := fun r hr r' hr' hrr' => ?_
      first := ?_
      used := fun v => ⟨?_, fun hv => ?_⟩
      size := fun v hone hv => ?_
      antitone := fun v w hone hvw hw => ?_ }
  · have hmono := BalancedParts.part_mono hpos hle (Nat.sub_le_sub_right hrr' begin)
    rw [partitionBucket, partitionBucket]
    omega
  · rw [partitionBucket, Nat.sub_self, BalancedParts.part_zero hpos hle]
    rfl
  · rintro ⟨row, hrow, hstp, rfl⟩
    have hlt := (BalancedParts.part_lt_iff hpos hle).2 (Nat.sub_lt_sub_right hrow hstp)
    rw [partitionBucket]
    omega
  · obtain ⟨b, hb, rfl⟩ := hpart v hv.1 hv.2
    obtain ⟨i, hi, heq⟩ := BalancedParts.exists_part_eq hpos hle hb
    refine ⟨begin + i, Nat.le_add_right _ _, by omega, ?_⟩
    rw [partitionBucket, Nat.add_sub_cancel_left, heq]
  · obtain ⟨b, hb, rfl⟩ := hpart v hone hv
    rw [card_bucketRows hb, BalancedParts.length]
    split_ifs
    · exact .inr rfl
    · exact .inl rfl
  · obtain ⟨b, hb, rfl⟩ := hpart v hone (hvw.trans hw)
    obtain ⟨c, hc, rfl⟩ := hpart w (hone.trans hvw) hw
    rw [card_bucketRows hb, card_bucketRows hc]
    exact BalancedParts.length_antitone (by omega)

/-- The buckets of each partition are balanced, for any argument that is not less than 1. -/
theorem ntile_balanced {begin stop n : ℕ} (hbegin : begin < stop) (hstop : stop < idxRange)
    (hcast : stop - begin < 2 ^ 63) (hn : 1 ≤ n) :
    ∃ value : ℕ → ℤ, (∀ row, begin ≤ row → row < stop →
        ntile none begin stop row (some n) = .ok (some (value row))) ∧
      BalancedBuckets value n begin stop :=
  ⟨partitionBucket n begin stop, fun _ hrow hlt => ntile_eq hrow hlt hstop hcast hn,
    balancedBuckets_partitionBucket hbegin hn⟩

/-- Five rows from row 2 on are in two buckets, of three and of two rows. -/
theorem ntile_balanced_five : ∃ value : ℕ → ℤ, (∀ row, 2 ≤ row → row < 7 →
      ntile none 2 7 row (some 2) = .ok (some (value row))) ∧ BalancedBuckets value 2 2 7 :=
  ntile_balanced (n := 2) (by decide) (by decide) (by decide) (by decide)

end OrderedRows

end WfOpt

import WfOpt.Lib.Buckets

/-!
# Radix partitioning

Rows are partitioned by some bits of their hashes (`RadixPartitioning`). The data of a
`RadixPartitionedTupleData` is always well-formed: it has a partition for each value of
the bits, and every row is in the partition of its hash. What the source
asserts about it is part of its type.
-/

namespace WfOpt

open List

namespace RadixPartitioning

/-- `MAX_RADIX_BITS`. -/
def maxRadixBits : ℕ := 12

/-- `NumberOfPartitions`. -/
def numberOfPartitions (radixBits : ℕ) : ℕ := 1 <<< radixBits

/-- `Shift`: the two highest bytes of a `hash_t` are not used. -/
def shift (radixBits : ℕ) : ℕ := (8 - 2) * 8 - radixBits

/-- `Mask`. -/
def mask (radixBits : ℕ) : UInt64 := (UInt64.ofNat (1 <<< radixBits) - 1) <<< UInt64.ofNat (shift radixBits)

/-- `ApplyMask`. -/
def applyMask (radixBits : ℕ) (hash : UInt64) : ℕ :=
  ((hash &&& mask radixBits) >>> UInt64.ofNat (shift radixBits)).toNat

theorem mask_lt {b : ℕ} (hb : b ≤ maxRadixBits) : (mask b).toNat < 2 ^ shift b * numberOfPartitions b := by
  rw [maxRadixBits] at hb
  interval_cases b <;> decide

theorem applyMask_lt {b : ℕ} (hb : b ≤ maxRadixBits) (hash : UInt64) : applyMask b hash < numberOfPartitions b := by
  have hsh : (UInt64.ofNat (shift b)).toNat % 64 = shift b := by
    have : shift b ≤ 48 := Nat.sub_le ..
    rw [UInt64.toNat_ofNat_of_lt' (this.trans_lt (by decide)), Nat.mod_eq_of_lt (by omega)]
  rw [applyMask, UInt64.toNat_shiftRight, hsh, UInt64.toNat_and, Nat.shiftRight_eq_div_pow]
  exact Nat.div_lt_of_lt_mul (Nat.and_le_right.trans_lt (mask_lt hb))

theorem numberOfPartitions_inj {b b' : ℕ} (h : numberOfPartitions b = numberOfPartitions b') : b = b' := by
  rw [numberOfPartitions, numberOfPartitions, Nat.one_shiftLeft, Nat.one_shiftLeft] at h
  exact Nat.pow_right_injective le_rfl h

theorem numberOfPartitions_pos {b : ℕ} : 0 < numberOfPartitions b := by
  rw [numberOfPartitions, Nat.one_shiftLeft]
  exact Nat.two_pow_pos b

end RadixPartitioning

open RadixPartitioning

variable {α : Type*} {hash : α → UInt64}

/-- `RadixPartitionedTupleData`, for rows with a hash. -/
@[ext]
structure RadixPartitionedTupleData (hash : α → UInt64) where
  radixBits : ℕ
  partitions : List (List α)
  radixBits_le : radixBits ≤ maxRadixBits
  length_partitions : partitions.length = numberOfPartitions radixBits
  placed : Placed (fun x => applyMask radixBits (hash x)) partitions

namespace RadixPartitionedTupleData

variable (p new : RadixPartitionedTupleData hash)

/-- All rows. -/
def rows : List α := p.partitions.flatten

variable (hash) in
/-- `CreatePartition`. -/
def create (bits : ℕ) (h : bits ≤ maxRadixBits) : RadixPartitionedTupleData hash where
  radixBits := bits
  partitions := replicate (numberOfPartitions bits) []
  radixBits_le := h
  length_partitions := length_replicate
  placed := placed_replicate_nil

/-- `Append`: each row is appended to the partition of its hash. -/
def append (xs : List α) : RadixPartitionedTupleData hash where
  radixBits := p.radixBits
  partitions := distribute (fun x => applyMask p.radixBits (hash x)) p.partitions xs
  radixBits_le := p.radixBits_le
  length_partitions := by rw [length_distribute, p.length_partitions]
  placed := p.placed.distribute

/-- `Combine`, with the data of the same partitions. -/
def combine (h : p.partitions.length = new.partitions.length) : RadixPartitionedTupleData hash where
  radixBits := new.radixBits
  partitions := zipWith (· ++ ·) new.partitions p.partitions
  radixBits_le := new.radixBits_le
  length_partitions := by rw [length_zipWith, h, Nat.min_self, new.length_partitions]
  placed := by
    have hbits : p.radixBits = new.radixBits := by
      rw [p.length_partitions, new.length_partitions] at h
      exact numberOfPartitions_inj h
    intro i x hx
    rcases Nat.lt_or_ge i new.partitions.length with hi | hi
    · rw [getD_eq_getElem _ _ (by simpa [h] using hi), getElem_zipWith, mem_append] at hx
      rcases hx with hx | hx
      · exact new.placed i x (by rwa [getD_eq_getElem _ _ hi])
      · have := p.placed i x (by rwa [getD_eq_getElem _ _ (h ▸ hi)])
        rwa [hbits] at this
    · rw [getD_eq_default _ _ (by simp [hi])] at hx
      exact absurd hx not_mem_nil

/-- `Repartition`: what is returned is the new data. -/
def repartition : RadixPartitionedTupleData hash :=
  if h : p.partitions.length = new.partitions.length then p.combine new h else new.append p.rows

/-- A partition has been scanned, and its rows were destroyed. -/
def scanned (i : ℕ) : RadixPartitionedTupleData hash where
  radixBits := p.radixBits
  partitions := p.partitions.set i []
  radixBits_le := p.radixBits_le
  length_partitions := by rw [length_set, p.length_partitions]
  placed := p.placed.set_nil

variable {p new}

@[simp] theorem rows_create {b : ℕ} {h : b ≤ maxRadixBits} : (create hash b h).rows = [] := by
  simp [rows, create]

theorem rows_append (xs : List α) : (p.append xs).rows.Perm (p.rows ++ xs) := by
  refine flatten_distribute fun x _ => ?_
  rw [p.length_partitions]
  exact applyMask_lt p.radixBits_le _

theorem radixBits_repartition : (p.repartition new).radixBits = new.radixBits := by
  rw [repartition]
  split <;> rfl

theorem rows_repartition : (p.repartition new).rows.Perm (new.rows ++ p.rows) := by
  rw [repartition]
  split
  next h => exact flatten_zipWith_append h.symm
  next => exact rows_append p.rows

theorem rows_scanned {i : ℕ} (hi : i < p.partitions.length) :
    p.rows.Perm ((p.scanned i).rows ++ p.partitions.getD i []) := by
  have hspl : p.partitions = p.partitions.take i ++ p.partitions[i] :: p.partitions.drop (i + 1) := by
    simp
  have hset : p.partitions.set i [] = p.partitions.take i ++ [] :: p.partitions.drop (i + 1) :=
    set_eq_take_append_cons_drop .. |>.trans (if_pos hi)
  change p.partitions.flatten.Perm ((p.partitions.set i []).flatten ++ _)
  rw [hset, getD_eq_getElem _ _ hi]
  conv_lhs => rw [hspl]
  simp only [flatten_append, append_assoc]
  exact (perm_append_comm).append_left _

end RadixPartitionedTupleData

end WfOpt

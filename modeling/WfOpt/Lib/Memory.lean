import WfOpt.Lib.ByteStream

/-!
# Memory

The bytes of a block, by offset. What is read is what was written there last (`Memory.read_write_self`,
`Memory.read_write_of_disjoint`), and bytes that were moved are read at their new offset (`Memory.read_memmove`). A
value of a type of fixed size (`Storable`) and a number of a given width are stored as their bytes; an array has one
value behind the other.
-/

namespace WfOpt

open List

/-! ## Alignment -/

/-- `AlignValue`: the next multiple. -/
def alignValue (val n : ℕ) : ℕ := (n + (val - 1)) / val * val

/-- `AlignValueFloor`: the multiple before. -/
def alignValueFloor (val n : ℕ) : ℕ := n / val * val

theorem le_alignValue {val : ℕ} (hval : 0 < val) (n : ℕ) : n ≤ alignValue val n := by
  have hdiv := Nat.div_add_mod (n + (val - 1)) val
  have hmod := Nat.mod_lt (n + (val - 1)) hval
  rw [alignValue, mul_comm]
  omega

/-- A multiple that is not before a number is not before the next multiple either. -/
theorem alignValue_lt {val : ℕ} (hval : 0 < val) (n : ℕ) : alignValue val n < n + val :=
  (Nat.div_mul_le_self _ val).trans_lt (by omega)

theorem alignValue_le {val n k : ℕ} (hval : 0 < val) (h : n ≤ k * val) : alignValue val n ≤ k * val := by
  refine Nat.mul_le_mul_right val (Nat.lt_succ_iff.1 ((Nat.div_lt_iff_lt_mul hval).2 ?_))
  rw [Nat.succ_mul]
  omega

theorem alignValueFloor_le (val n : ℕ) : alignValueFloor val n ≤ n := Nat.div_mul_le_self n val

/-! ## Bytes -/

/-- The bytes of a block, by offset. -/
abbrev Memory := ℕ → UInt8

namespace Memory

/-- The memory with bytes written at an offset. -/
def write (m : Memory) (offset : ℕ) (bytes : List UInt8) : Memory := fun i =>
  if offset ≤ i then bytes.getD (i - offset) (m i) else m i

/-- The `n` bytes at an offset. -/
def read (m : Memory) (offset n : ℕ) : List UInt8 := (range n).map fun i => m (offset + i)

/-- `memset` -/
def memset (m : Memory) (offset : ℕ) (b : UInt8) (n : ℕ) : Memory := m.write offset (replicate n b)

/-- `memmove` -/
def memmove (m : Memory) (dst src n : ℕ) : Memory := m.write dst (m.read src n)

variable (m : Memory) (offset : ℕ)

@[simp] theorem length_read (offset n : ℕ) : (m.read offset n).length = n := by
  rw [read, length_map, length_range]

theorem take_read {k n : ℕ} (h : k ≤ n) : (m.read offset n).take k = m.read offset k := by
  rw [read, read, ← map_take, take_range, min_eq_left h]

theorem write_add {bytes : List UInt8} {k : ℕ} (hk : k < bytes.length) :
    m.write offset bytes (offset + k) = bytes[k] := by
  rw [write, if_pos (Nat.le_add_right offset k), Nat.add_sub_cancel_left]
  exact getD_eq_getElem _ _ hk

theorem write_of_disjoint {offset i : ℕ} {bytes : List UInt8}
    (h : i < offset ∨ offset + bytes.length ≤ i) : m.write offset bytes i = m i := by
  rw [write]
  rcases h with h | h
  · exact if_neg (not_le.2 h)
  · rw [if_pos (le_trans (Nat.le_add_right _ _) h)]
    exact getD_eq_default _ _ (Nat.le_sub_of_add_le' h)

theorem read_add (offset n k : ℕ) : m.read offset (n + k) = m.read offset n ++ m.read (offset + n) k := by
  rw [read, range_add, map_append, map_map]
  refine congrArg (m.read offset n ++ ·) (map_congr_left fun i _ => ?_)
  rw [Function.comp_apply, Nat.add_assoc]

theorem read_append {m : Memory} {offset : ℕ} {bytes bytes' : List UInt8}
    (h : m.read offset (bytes ++ bytes').length = bytes ++ bytes') :
    m.read offset bytes.length = bytes ∧ m.read (offset + bytes.length) bytes'.length = bytes' := by
  rw [length_append, read_add] at h
  exact append_inj h (length_read _ _ _)

/-- A part of bytes that are read is what is read there. -/
theorem take_drop_read {k w n : ℕ} (h : k + w ≤ n) : ((m.read offset n).drop k).take w = m.read (offset + k) w := by
  obtain ⟨r, rfl⟩ := Nat.exists_eq_add_of_le h
  have hlen : (m.read offset k).length = k := length_read _ _ _
  rw [Nat.add_assoc, read_add, drop_append_of_le_length hlen.ge, drop_eq_nil_of_le hlen.le,
    nil_append, read_add, take_append_of_le_length (length_read _ _ _).ge,
    take_of_length_le (length_read _ _ _).le]

theorem write_write (bytes bytes' : List UInt8) :
    (m.write offset bytes).write (offset + bytes.length) bytes' = m.write offset (bytes ++ bytes') := by
  funext i
  rw [write, write, write]
  by_cases hle : offset + bytes.length ≤ i
  · rw [if_pos hle, if_pos (by omega), if_pos (by omega), getD_append_right _ _ _ _ (by omega),
      getD_eq_default _ _ (by omega : bytes.length ≤ i - offset), Nat.sub_sub]
  · rw [if_neg hle]
    by_cases hoff : offset ≤ i
    · rw [if_pos hoff, if_pos hoff, getD_append _ _ _ _ (by omega)]
    · rw [if_neg hoff, if_neg hoff]

theorem read_congr {m m' : Memory} {offset offset' n : ℕ}
    (h : ∀ i < n, m (offset + i) = m' (offset' + i)) : m.read offset n = m'.read offset' n :=
  map_congr_left fun i hi => h i (mem_range.1 hi)

theorem read_write_self (bytes : List UInt8) : (m.write offset bytes).read offset bytes.length = bytes := by
  refine ext_getElem (length_read _ _ _) fun i hi hi' => ?_
  refine (getElem_map _).trans ?_
  rw [getElem_range]
  exact m.write_add offset hi'

theorem read_write_of_disjoint {offset offset' n : ℕ} {bytes : List UInt8}
    (h : offset + n ≤ offset' ∨ offset' + bytes.length ≤ offset) :
    (m.write offset' bytes).read offset n = m.read offset n := by
  refine read_congr fun i hi => m.write_of_disjoint ?_
  rcases h with h | h
  · exact .inl ((Nat.add_lt_add_left hi offset).trans_le h)
  · exact .inr (h.trans (Nat.le_add_right offset i))

/-- What was moved is read at its new offset, also if the old bytes overlap the new ones. -/
theorem read_memmove (dst src : ℕ) {n k w : ℕ} (h : k + w ≤ n) :
    (m.memmove dst src n).read (dst + k) w = m.read (src + k) w := by
  refine read_congr fun i hi => ?_
  have hlt : k + i < (m.read src n).length := by
    rw [length_read]
    exact (Nat.add_lt_add_left hi k).trans_le h
  rw [Nat.add_assoc, memmove, m.write_add dst hlt, Nat.add_assoc]
  exact (getElem_map _).trans (by rw [getElem_range])

theorem read_memmove_of_disjoint {dst src n offset w : ℕ} (h : offset + w ≤ dst ∨ dst + n ≤ offset) :
    (m.memmove dst src n).read offset w = m.read offset w := by
  refine m.read_write_of_disjoint ?_
  rwa [length_read]

theorem read_memset_of_disjoint {dst n offset w : ℕ} {b : UInt8} (h : offset + w ≤ dst ∨ dst + n ≤ offset) :
    (m.memset dst b n).read offset w = m.read offset w := by
  refine m.read_write_of_disjoint ?_
  rwa [length_replicate]

/-! ## Numbers -/

/-- The number of `w` bytes at an offset. -/
def loadNat (m : Memory) (w offset : ℕ) : ℕ := ofLittleEndian (m.read offset w)

/-- The memory with a number of `w` bytes stored at an offset. -/
def storeNat (m : Memory) (w offset n : ℕ) : Memory := m.write offset (littleEndian w n)

theorem loadNat_storeNat {w offset n : ℕ} (hn : n < 256 ^ w) : (m.storeNat w offset n).loadNat w offset = n := by
  have h := m.read_write_self offset (littleEndian w n)
  rw [length_littleEndian] at h
  rw [loadNat, storeNat, h, ofLittleEndian_littleEndian, Nat.mod_eq_of_lt hn]

theorem read_storeNat_of_disjoint {offset offset' w w' n : ℕ} (h : offset + w ≤ offset' ∨ offset' + w' ≤ offset) :
    (m.storeNat w' offset' n).read offset w = m.read offset w := by
  refine m.read_write_of_disjoint ?_
  rwa [length_littleEndian]

end Memory

/-! ## Values -/

/-- A type whose values are stored in a fixed number of bytes. -/
class Storable (α : Type*) where
  size : ℕ
  size_pos : 0 < size
  toBytes : α → List UInt8
  ofBytes : List UInt8 → α
  length_toBytes : ∀ x, (toBytes x).length = size
  ofBytes_toBytes : ∀ x, ofBytes (toBytes x) = x

/-- `sizeof` -/
def sizeOfType (α : Type*) [Storable α] : ℕ := Storable.size α

namespace Memory

variable {α : Type*} [Storable α]

/-- The value at an offset. -/
def load (α : Type*) [Storable α] (m : Memory) (offset : ℕ) : α := Storable.ofBytes (m.read offset (sizeOfType α))

/-- The memory with a value stored at an offset. -/
def store (m : Memory) (offset : ℕ) (x : α) : Memory := m.write offset (Storable.toBytes x)

theorem load_store (m : Memory) (offset : ℕ) (x : α) : (m.store offset x).load α offset = x := by
  have h := m.read_write_self offset (Storable.toBytes x)
  rw [Storable.length_toBytes] at h
  exact (congrArg Storable.ofBytes h).trans (Storable.ofBytes_toBytes x)

theorem load_of_read {m : Memory} {offset : ℕ} {x : α}
    (h : m.read offset (Storable.toBytes x).length = Storable.toBytes x) : m.load α offset = x := by
  rw [Storable.length_toBytes] at h
  exact (congrArg Storable.ofBytes h).trans (Storable.ofBytes_toBytes x)

theorem read_store_of_disjoint (m : Memory) {offset offset' w : ℕ} {x : α}
    (h : offset + w ≤ offset' ∨ offset' + sizeOfType α ≤ offset) :
    (m.store offset' x).read offset w = m.read offset w := by
  refine m.read_write_of_disjoint ?_
  rwa [Storable.length_toBytes]

end Memory

end WfOpt

import WfOpt.Sort.KeyOrder

/-!
# The nodes of an adaptive radix tree

An index keeps its keys in a radix tree. Prefix nodes hold the bytes that a chain of nodes with one child would
have, all other nodes branch at a byte. Behind the last byte of a key is its row id, inlined into the node pointer,
or, for several row ids, a *gate*: a pointer with a bit set, behind which the row ids are a radix tree over their
own eight bytes. The last bytes of row ids that agree on all others are in a leaf node.

A node pointer with what it points to is a tree here (`Art.Node`), with nodes of the same interface as one
constructor: their bytes, in ascending order, are `key[0 .. count)`, or the positions in use.
-/

namespace WfOpt

namespace Art

/-! ## Row ids -/

/-- `row_t`. All row ids are below `MAX_ROW_ID_LOCAL`, and fit into a pointer next to its metadata. -/
abbrev RowId := BitVec 64

/-- `Prefix::ROW_ID_COUNT`. -/
def rowIdCount : ℕ := 7

/-- `ARTKey::CreateARTKey<row_t>`. -/
def rowIdKey (rowId : RowId) : List UInt8 := encodeSignedData 8 rowId.toNat

/-- `ARTKey::GetRowId`. -/
def getRowId (key : List UInt8) : RowId := BitVec.ofNat 64 (ofBigEndian (flipSign key))

theorem length_rowIdKey (rowId : RowId) : (rowIdKey rowId).length = rowIdCount + 1 := by
  rw [rowIdKey, encodeSignedData, length_flipSign, length_bigEndian, rowIdCount]

theorem flipSign_flipSign (l : List UInt8) : flipSign (flipSign l) = l := by
  cases l with
  | nil => rfl
  | cons b l => rw [flipSign, flipSign, UInt8.xor_assoc, UInt8.xor_self, UInt8.xor_zero]

theorem getRowId_rowIdKey (rowId : RowId) : getRowId (rowIdKey rowId) = rowId := by
  rw [getRowId, rowIdKey, encodeSignedData, flipSign_flipSign, ofBigEndian_bigEndian,
    show 256 ^ 8 = 2 ^ 64 from rfl, Nat.mod_eq_of_lt rowId.isLt, BitVec.ofNat_toNat, BitVec.setWidth_eq]

/-- All lists of eight bytes are row ids. -/
theorem rowIdKey_getRowId {key : List UInt8} (h : key.length = rowIdCount + 1) : rowIdKey (getRowId key) = key := by
  have hlt : ofBigEndian (flipSign key) < 2 ^ 64 := by
    have := ofBigEndian_lt (flipSign key)
    rwa [length_flipSign, h] at this
  have hlen : (bigEndian 8 (ofBigEndian (flipSign key))).length = (flipSign key).length := by
    rw [length_bigEndian, length_flipSign, h, rowIdCount]
  have hval : ofBigEndian (bigEndian 8 (ofBigEndian (flipSign key))) = ofBigEndian (flipSign key) := by
    rw [ofBigEndian_bigEndian, show 256 ^ 8 = 2 ^ 64 from rfl, Nat.mod_eq_of_lt hlt]
  have hbs : bigEndian 8 (ofBigEndian (flipSign key)) = flipSign key := by
    rcases lt_trichotomy (bigEndian 8 (ofBigEndian (flipSign key))) (flipSign key) with hlt | heq | hgt
    · exact absurd ((lt_iff_ofBigEndian_lt hlen).1 hlt) (by rw [hval]; exact lt_irrefl _)
    · exact heq
    · exact absurd ((lt_iff_ofBigEndian_lt hlen.symm).1 hgt) (by rw [hval]; exact lt_irrefl _)
  rw [rowIdKey, getRowId, BitVec.toNat_ofNat, Nat.mod_eq_of_lt hlt, encodeSignedData, hbs, flipSign_flipSign]

theorem rowIdKey_injective : Function.Injective rowIdKey := Function.LeftInverse.injective getRowId_rowIdKey

/-! ## Nodes -/

/-- The types of nodes with children. -/
inductive NodeType
  | node4
  | node16
  | node48
  | node256
  deriving DecidableEq, Repr

/-- The types of nodes with the last bytes of row ids. -/
inductive LeafType
  | node7Leaf
  | node15Leaf
  | node256Leaf
  deriving DecidableEq, Repr

/-- `CAPACITY`. -/
def NodeType.capacity : NodeType → ℕ
  | .node4 => 4
  | .node16 => 16
  | .node48 => 48
  | .node256 => 256

/-- `CAPACITY`. -/
def LeafType.capacity : LeafType → ℕ
  | .node7Leaf => 7
  | .node15Leaf => 15
  | .node256Leaf => 256

/-- A node pointer, and what is behind it. `gate` is the bit `AND_GATE` of the pointer. -/
inductive Node
  /-- A pointer without metadata. -/
  | empty
  /-- `LEAF_INLINED`. -/
  | inlined (rowId : RowId)
  /-- `PREFIX`: the first `data[Count]` bytes, and `*ptr`. -/
  | prefixNode (gate : Bool) (data : List UInt8) (child : Node)
  /-- A node with a child for each of its bytes. -/
  | inner (gate : Bool) (type : NodeType) (keys : List UInt8) (children : UInt8 → Node)
  /-- A node with the last bytes of row ids. -/
  | leafNode (gate : Bool) (type : LeafType) (bytes : List UInt8)

namespace Node

/-- `GetGateStatus`. -/
def gate : Node → Bool
  | .empty => false
  | .inlined _ => false
  | .prefixNode gate _ _ => gate
  | .inner gate _ _ _ => gate
  | .leafNode gate _ _ => gate

/-- `SetGateStatus`, which is never called for an inlined row id. -/
def setGate (gate : Bool) : Node → Node
  | .empty => .empty
  | .inlined rowId => .inlined rowId
  | .prefixNode _ data child => .prefixNode gate data child
  | .inner _ type keys children => .inner gate type keys children
  | .leafNode _ type bytes => .leafNode gate type bytes

/-- `GetType() == NType::PREFIX`. -/
def isPrefix : Node → Bool
  | .prefixNode _ _ _ => true
  | _ => false

/-- `GetType() == NType::LEAF_INLINED`. -/
def isInlined : Node → Bool
  | .inlined _ => true
  | _ => false

/-- Whether a pointer has no metadata. -/
def isEmpty : Node → Bool
  | .empty => true
  | _ => false

end Node

/-! ## Comparing bytes with a key -/

/-- The position of the first bytes of a prefix and of a key at a depth that differ, or `none`. A byte behind the end
    of the key is not read. -/
def comparePrefix (key : List UInt8) : List UInt8 → ℕ → Option (Option ℕ)
  | [], _ => some none
  | byte :: data, depth =>
    match key[depth]? with
    | none => none
    | some keyByte =>
      if byte ≠ keyByte then some (some 0)
      else (comparePrefix key data (depth + 1)).map (Option.map (· + 1))

/-- The key goes on with the prefix, or has another byte at some position, or ends within it. -/
theorem comparePrefix_cases (key data : List UInt8) (depth : ℕ) :
    (∃ rest, key.drop depth = data ++ rest ∧ comparePrefix key data depth = some none) ∨
    (∃ common byte keyByte bytes rest, data = common ++ byte :: bytes ∧
      key.drop depth = common ++ keyByte :: rest ∧ byte ≠ keyByte ∧
      comparePrefix key data depth = some (some common.length)) ∨
    ∃ bytes, bytes ≠ [] ∧ data = key.drop depth ++ bytes ∧ comparePrefix key data depth = none := by
  induction data generalizing depth with
  | nil => exact .inl ⟨_, rfl, rfl⟩
  | cons byte data ih =>
    cases hkey : key[depth]? with
    | none =>
      refine .inr (.inr ⟨byte :: data, List.cons_ne_nil _ _, ?_, ?_⟩)
      · rw [List.drop_eq_nil_of_le (List.getElem?_eq_none_iff.1 hkey), List.nil_append]
      · rw [comparePrefix, hkey]
    | some keyByte =>
      have hdrop : key.drop depth = keyByte :: key.drop (depth + 1) := by
        obtain ⟨hlt, heq⟩ := List.getElem?_eq_some_iff.1 hkey
        rw [List.drop_eq_getElem_cons hlt, heq]
      by_cases hby : byte = keyByte
      · have hcmp : comparePrefix key (byte :: data) depth =
            (comparePrefix key data (depth + 1)).map (Option.map (· + 1)) := by
          rw [comparePrefix, hkey]
          exact if_neg (not_not.2 hby)
        rw [hcmp, hdrop, ← hby]
        rcases ih (depth + 1) with ⟨rest, hrst, h⟩ | ⟨common, b, k, bytes, rest, hdata, hrst, hne, h⟩ |
          ⟨bytes, hne, hdata, h⟩
        · exact .inl ⟨rest, by rw [hrst, List.cons_append], by rw [h]; rfl⟩
        · exact .inr (.inl ⟨byte :: common, b, k, bytes, rest, by rw [hdata, List.cons_append],
            by rw [hrst, List.cons_append], hne, by rw [h]; rfl⟩)
        · exact .inr (.inr ⟨bytes, hne, by rw [List.cons_append, ← hdata], by rw [h]; rfl⟩)
      · refine .inr (.inl ⟨[], byte, keyByte, data, key.drop (depth + 1), rfl, hdrop, hby, ?_⟩)
        rw [comparePrefix, hkey]
        exact if_pos hby

/-! ## Point lookups -/

/-- `ARTOperator::Lookup`. The outer `none` is an exception, for an empty child, and a read behind the end of the key. -/
def lookup (key : List UInt8) : Node → ℕ → Option (Option Node)
  | .empty, _ => some none
  | .inlined rowId, _ => some (some (.inlined rowId))
  | .leafNode gate type bytes, _ => some (some (.leafNode gate type bytes))
  | .prefixNode gate data child, depth =>
    if gate then some (some (.prefixNode gate data child))
    else
      match comparePrefix key data depth with
      | none => none
      | some (some _) => some none
      | some none => lookup key child (depth + data.length)
  | .inner gate type keys children, depth =>
    if gate then some (some (.inner gate type keys children))
    else
      match key[depth]? with
      | none => none
      | some byte =>
        if byte ∈ keys then
          if (children byte).isEmpty then none else lookup key (children byte) (depth + 1)
        else some none

end Art

end WfOpt

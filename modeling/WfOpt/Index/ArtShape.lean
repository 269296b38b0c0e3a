import WfOpt.Index.Art

/-!
# The shape of an adaptive radix tree

Outside of gates, every leaf is an inlined row id or a gate, and the path to it is a key. Inside a gate, the path is
the beginning of a row id, for a leaf node all of its bytes but the last (`InGate`). A prefix node is full unless it
is the last one of its chain, and a chain ends at a gate.

The row ids of a gate (`gateRows`) and the keys with their row ids (`entries`) are listed in the order of the bytes.
The keys ascend, and none is a prefix of another one (`pairwise_leaves`).
-/

namespace WfOpt

open List

namespace Art

/-- What all nodes of an index have in common: the number of bytes of a prefix node. -/
structure Layout where
  prefixCount : ℕ
  /-- It is one less than a multiple of eight. -/
  rowIdCount_le : rowIdCount ≤ prefixCount

/-- The smallest number of bytes of a node of each type. -/
structure Sizes where
  node : NodeType → ℕ
  leaf : LeafType → ℕ
  node_pos : ∀ type, 0 < node type
  leaf_pos : ∀ type, 0 < leaf type

/-- A node with one child is a prefix instead of a `Node4`. -/
def Sizes.rules : Sizes where
  node
    | .node4 => 2
    | _ => 1
  leaf _ := 1
  node_pos type := by cases type <;> decide
  leaf_pos _ := Nat.one_pos

/-- The thresholds below which a node is replaced by one of the next smaller type. -/
def Sizes.thresholds : Sizes where
  node
    | .node4 => 2
    | .node16 => 4
    | .node48 => 12
    | .node256 => 37
  leaf
    | .node7Leaf => 2
    | .node15Leaf => 7
    | .node256Leaf => 13
  node_pos type := by cases type <;> decide
  leaf_pos type := by cases type <;> decide

/-- The bytes of a node ascend, and there are as many as its type is for. -/
structure Fits (least most : ℕ) (keys : List UInt8) : Prop where
  sorted : keys.Pairwise (· < ·)
  least_le : least ≤ keys.length
  le_most : keys.length ≤ most

/-! ## Contents -/

/-- The row ids of a gate from the path of a node inside it. -/
def gateRows : Node → List UInt8 → List RowId
  | .empty, _ => []
  | .inlined rowId, _ => [rowId]
  | .prefixNode _ data child, path => gateRows child (path ++ data)
  | .inner _ _ keys children, path => keys.flatMap fun byte => gateRows (children byte) (path ++ [byte])
  | .leafNode _ _ bytes, path => bytes.map fun byte => getRowId (path ++ [byte])

/-- The keys of a tree, from a node outside of gates on, with the inlined row ids and the gates behind them. -/
def leaves : Node → List (List UInt8 × Node)
  | .empty => []
  | .inlined rowId => [([], .inlined rowId)]
  | .leafNode gate type bytes => [([], .leafNode gate type bytes)]
  | .prefixNode gate data child =>
    if gate then [([], .prefixNode gate data child)]
    else (leaves child).map fun leaf => (data ++ leaf.1, leaf.2)
  | .inner gate type keys children =>
    if gate then [([], .inner gate type keys children)]
    else keys.flatMap fun byte => (leaves (children byte)).map fun leaf => (byte :: leaf.1, leaf.2)

/-- The keys of a tree with their row ids. -/
def entries (tree : Node) : List (List UInt8 × List RowId) :=
  (leaves tree).map fun leaf => (leaf.1, gateRows leaf.2 [])

/-! ## Shape -/

variable (layout : Layout) (sizes : Sizes)

/-- The shape of a node inside a gate, behind a path. The node behind the gate is the root. -/
def InGate : Node → Bool → List UInt8 → Prop
  | .empty, _, _ => False
  | .inlined rowId, root, path => root = false ∧ path <+: rowIdKey rowId
  | .prefixNode gate data child, root, path =>
    gate = root ∧ data ≠ [] ∧ data.length ≤ layout.prefixCount ∧
      (child.isPrefix → data.length = layout.prefixCount) ∧ child.isInlined = false ∧
      InGate child false (path ++ data)
  | .inner gate type keys children, root, path =>
    gate = root ∧ path.length < rowIdCount ∧ Fits (sizes.node type) type.capacity keys ∧
      ∀ byte ∈ keys, InGate (children byte) false (path ++ [byte])
  | .leafNode gate type bytes, root, path =>
    gate = false ∧ root = false ∧ path.length = rowIdCount ∧ Fits (sizes.leaf type) type.capacity bytes

/-- The shape of a gate, which holds at least two row ids. -/
def GateShape (node : Node) : Prop := InGate layout sizes node true [] ∧ 2 ≤ (gateRows node []).length

/-- The shape of a node outside of gates. -/
def Outside : Node → Prop
  | .empty => False
  | .inlined _ => True
  | .leafNode _ _ _ => False
  | .prefixNode gate data child =>
    if gate then GateShape layout sizes (.prefixNode gate data child)
    else
      data ≠ [] ∧ data.length ≤ layout.prefixCount ∧
        (child.isPrefix → child.gate = false → data.length = layout.prefixCount) ∧ Outside child
  | .inner gate type keys children =>
    if gate then GateShape layout sizes (.inner gate type keys children)
    else Fits (sizes.node type) type.capacity keys ∧ ∀ byte ∈ keys, Outside (children byte)

/-- The shape of an index. -/
def Shape (tree : Node) : Prop := tree = .empty ∨ Outside layout sizes tree

/-! ## Lists of bytes -/

namespace Fits

variable {least most : ℕ} {keys : List UInt8}

theorem ne_nil (h : Fits least most keys) (hleast : 0 < least) : keys ≠ [] := by
  rintro rfl
  exact absurd (hleast.trans_le h.least_le) (lt_irrefl 0)

theorem nodup (h : Fits least most keys) : keys.Nodup := h.sorted.imp fun hlt => hlt.ne

end Fits

/-! ## Keys -/

variable {layout sizes}

theorem Outside.ne_empty {node : Node} (h : Outside layout sizes node) : node ≠ .empty := by
  rintro rfl
  exact h

/-- Behind a key is an inlined row id or a gate. -/
theorem isInlined_or_gate_of_mem_leaves {node : Node} (h : Outside layout sizes node)
    {leaf : List UInt8 × Node} (hlf : leaf ∈ leaves node) :
    leaf.2.isInlined ∨ leaf.2.gate ∧ GateShape layout sizes leaf.2 := by
  induction node generalizing leaf with
  | empty => exact absurd h not_false
  | inlined rowId =>
    rw [leaves, mem_singleton] at hlf
    rw [hlf]
    exact .inl rfl
  | leafNode gate type bytes => exact absurd h not_false
  | prefixNode gate data child ih =>
    cases gate with
    | true =>
      rw [leaves, if_pos rfl, mem_singleton] at hlf
      rw [hlf]
      exact .inr ⟨rfl, h⟩
    | false =>
      obtain ⟨leaf, hmem, rfl⟩ := mem_map.1 hlf
      have hch := ih h.2.2.2 hmem
      exact hch
  | inner gate type keys children ih =>
    cases gate with
    | true =>
      rw [leaves, if_pos rfl, mem_singleton] at hlf
      rw [hlf]
      exact .inr ⟨rfl, h⟩
    | false =>
      obtain ⟨byte, hby, hlf⟩ := mem_flatMap.1 hlf
      obtain ⟨leaf, hmem, rfl⟩ := mem_map.1 hlf
      have hch := ih byte (h.2 byte hby) hmem
      exact hch

theorem leaves_of_leaf {leaf : Node} (h : leaf.isInlined ∨ leaf.gate) : leaves leaf = [([], leaf)] := by
  cases leaf with
  | empty => simp [Node.isInlined, Node.gate] at h
  | inlined rowId => rfl
  | leafNode gate type bytes => rfl
  | prefixNode gate data child
  | inner gate type keys children => exact if_pos (h.resolve_left Bool.false_ne_true)

theorem outside_of_leaf {leaf : Node} (h : leaf.isInlined ∨ leaf.gate ∧ GateShape layout sizes leaf) :
    Outside layout sizes leaf := by
  cases leaf with
  | empty => simp [Node.isInlined, Node.gate] at h
  | inlined rowId => trivial
  | leafNode gate type bytes =>
    obtain ⟨-, ⟨-, hroot, -⟩, -⟩ := h.resolve_left Bool.false_ne_true
    exact nomatch hroot
  | prefixNode gate data child | inner gate type keys children =>
    obtain ⟨rfl, hgate⟩ := h.resolve_left Bool.false_ne_true
    exact hgate

theorem leaves_ne_nil {node : Node} (h : Outside layout sizes node) : leaves node ≠ [] := by
  induction node with
  | empty => exact absurd h not_false
  | inlined rowId => exact cons_ne_nil _ _
  | leafNode gate type bytes => exact absurd h not_false
  | prefixNode gate data child ih =>
    cases gate with
    | true => exact cons_ne_nil _ _
    | false =>
      intro hnil
      exact ih h.2.2.2 (map_eq_nil_iff.1 hnil)
  | inner gate type keys children ih =>
    cases gate with
    | true => exact cons_ne_nil _ _
    | false =>
      intro hnil
      obtain ⟨byte, hby⟩ := exists_mem_of_ne_nil _ (h.1.ne_nil (sizes.node_pos type))
      exact ih byte (h.2 byte hby)
        (map_eq_nil_iff.1 (flatMap_eq_nil_iff.1 hnil byte hby))

/-- The keys of a tree ascend, and none of them is a prefix of another one. -/
theorem pairwise_leaves {node : Node} (h : Outside layout sizes node) :
    (leaves node).Pairwise fun leaf leaf' => leaf.1 < leaf'.1 ∧ PrefixFree leaf.1 leaf'.1 := by
  induction node with
  | empty => exact List.Pairwise.nil
  | inlined rowId | leafNode gate type bytes => exact pairwise_singleton _ _
  | prefixNode gate data child ih =>
    cases gate with
    | true => exact pairwise_singleton _ _
    | false =>
      refine pairwise_map.2 ((ih h.2.2.2).imp fun {leaf leaf'} hlt => ⟨?_, ?_⟩)
      · exact (append_lt_append_iff (.of_length_eq rfl)).2 (.inr ⟨rfl, hlt.1⟩)
      · exact PrefixFree.append (.of_length_eq rfl) hlt.2
  | inner gate type keys children ih =>
    cases gate with
    | true => exact pairwise_singleton _ _
    | false =>
      refine pairwise_flatMap.2 ⟨fun byte hby => ?_, h.1.sorted.imp ?_⟩
      · refine pairwise_map.2 ((ih byte (h.2 byte hby)).imp fun hlt => ⟨?_, hlt.2.cons byte⟩)
        exact cons_lt_cons_iff.2 (.inr ⟨rfl, hlt.1⟩)
      · intro byte byte' hlt leaf hlf leaf' hlf'
        obtain ⟨leaf, -, rfl⟩ := mem_map.1 hlf
        obtain ⟨leaf', -, rfl⟩ := mem_map.1 hlf'
        refine ⟨cons_lt_cons_iff.2 (.inl hlt), fun hpre => ?_, fun hpre => ?_⟩
        · exact absurd (cons_prefix_cons.1 hpre).1 hlt.ne
        · exact absurd (cons_prefix_cons.1 hpre).1 hlt.ne'

end Art

end WfOpt

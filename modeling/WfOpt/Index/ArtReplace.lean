import WfOpt.Index.ArtOperator

/-!
# Replacing a subtree of an adaptive radix tree

An insertion and a deletion replace a subtree. Outside of gates, what it holds is a relation between the rest of a
key and a row id (`Holds`), and inside a gate a list of row ids. If just one pair is different (`Replaces`,
`ReplacesIn`), and the new subtree fits, then the same is true for the node above. Chains of prefixes have their
bytes in full nodes, except for the last one (`newPrefix`), however they came to be.
-/

namespace WfOpt

open List Function

namespace Art

/-! ## The bytes of a node -/

variable {keys bytes data : List UInt8} {type : NodeType} {child : Node} {byte : UInt8} {count : ℕ}

theorem length_le_of_sorted (h : keys.Nodup) : keys.length ≤ 256 := by
  have hsubset : keys.map UInt8.toNat ⊆ range 256 := by
    intro n hn
    obtain ⟨byte, -, rfl⟩ := mem_map.1 hn
    exact mem_range.2 byte.toNat_lt
  have hnd : (keys.map UInt8.toNat).Nodup := h.map fun _ _ => UInt8.toNat_inj.1
  simpa using (subperm_of_subset hnd hsubset).length_le

theorem insertByte_perm (byte : UInt8) (keys : List UInt8) : (insertByte byte keys).Perm (byte :: keys) := by
  have happ := takeWhile_append_dropWhile (p := (· < byte)) (l := keys)
  refine perm_middle.trans ?_
  rw [happ]

theorem mem_insertByte {byte b : UInt8} : b ∈ insertByte byte keys ↔ b = byte ∨ b ∈ keys := by
  rw [(insertByte_perm byte keys).mem_iff, mem_cons]

theorem length_insertByte (byte : UInt8) (keys : List UInt8) : (insertByte byte keys).length = keys.length + 1 := by
  rw [(insertByte_perm byte keys).length_eq, length_cons]

theorem sorted_insertByte (h : keys.Pairwise (· < ·)) (hnew : byte ∉ keys) :
    (insertByte byte keys).Pairwise (· < ·) := by
  induction keys with
  | nil => exact pairwise_singleton _ _
  | cons b keys ih =>
    obtain ⟨hb, hkeys⟩ := pairwise_cons.1 h
    rw [mem_cons, not_or] at hnew
    by_cases hlt : b < byte
    · have heq : insertByte byte (b :: keys) = b :: insertByte byte keys := by
        simp [insertByte, hlt]
      rw [heq]
      refine pairwise_cons.2 ⟨fun x hx => ?_, ih hkeys hnew.2⟩
      rcases mem_insertByte.1 hx with rfl | hx
      · exact hlt
      · exact hb x hx
    · have heq : insertByte byte (b :: keys) = byte :: b :: keys := by
        simp [insertByte, hlt]
      have hlt' : byte < b := lt_of_le_of_ne (not_lt.1 hlt) hnew.1
      rw [heq]
      refine pairwise_cons.2 ⟨fun x hx => ?_, h⟩
      rcases mem_cons.1 hx with rfl | hx
      · exact hlt'
      · exact hlt'.trans (hb x hx)

/-- A type of node is for the numbers of children at which a node has it. -/
def NodeType.Sized (type : NodeType) (count : ℕ) : Prop := Sizes.thresholds.node type ≤ count ∧ count ≤ type.capacity

def LeafType.Sized (type : LeafType) (count : ℕ) : Prop := Sizes.thresholds.leaf type ≤ count ∧ count ≤ type.capacity

theorem NodeType.sized_grown (h : type.Sized count) (hle : count + 1 ≤ 256) :
    (if count = type.capacity then type.grown else type).Sized (count + 1) := by
  split_ifs with hfull
  · cases type with
    | node4 | node16 | node48 => exact ⟨by rw [hfull]; decide, by rw [hfull]; decide⟩
    | node256 =>
      rw [hfull] at hle
      exact absurd hle (by decide)
  · exact ⟨h.1.trans (Nat.le_succ _), lt_of_le_of_ne h.2 hfull⟩

theorem LeafType.sized_grown {type : LeafType} (h : type.Sized count) (hle : count + 1 ≤ 256) :
    (if count = type.capacity then type.grown else type).Sized (count + 1) := by
  split_ifs with hfull
  · cases type with
    | node7Leaf | node15Leaf => exact ⟨by rw [hfull]; decide, by rw [hfull]; decide⟩
    | node256Leaf =>
      rw [hfull] at hle
      exact absurd hle (by decide)
  · exact ⟨h.1.trans (Nat.le_succ _), lt_of_le_of_ne h.2 hfull⟩

theorem NodeType.sized_shrunk (h : type.Sized (count + 1))
    (hlft : type = .node4 → count ≠ 1) : (type.shrunk count).Sized count := by
  obtain ⟨hleast, hmost⟩ := h
  have hless := Nat.le_of_succ_le hmost
  cases type with
  | node4 => exact ⟨Nat.lt_of_le_of_ne (Nat.le_of_succ_le_succ hleast) (hlft rfl).symm, hless⟩
  | node16 =>
    rw [NodeType.shrunk]
    split_ifs with hcnt
    · exact ⟨hcnt, hless⟩
    · exact ⟨(by decide : 2 ≤ 3).trans (Nat.le_of_succ_le_succ hleast), Nat.le_of_lt (not_le.1 hcnt)⟩
  | node48 =>
    rw [NodeType.shrunk]
    split_ifs with hcnt
    · exact ⟨hcnt, hless⟩
    · exact ⟨(by decide : 4 ≤ 11).trans (Nat.le_of_succ_le_succ hleast),
        (Nat.le_of_lt_succ (not_le.1 hcnt)).trans (by decide)⟩
  | node256 =>
    rw [NodeType.shrunk]
    split_ifs with hcnt
    · exact ⟨hcnt, hless⟩
    · exact ⟨(by decide : 12 ≤ 36).trans (Nat.le_of_succ_le_succ hleast), (not_lt.1 hcnt).trans (by decide)⟩

theorem LeafType.sized_shrunk {type : LeafType} (h : type.Sized (count + 1))
    (hlft : type = .node7Leaf → count ≠ 1) : (type.shrunk count).Sized count := by
  obtain ⟨hleast, hmost⟩ := h
  have hless := Nat.le_of_succ_le hmost
  cases type with
  | node7Leaf => exact ⟨Nat.lt_of_le_of_ne (Nat.le_of_succ_le_succ hleast) (hlft rfl).symm, hless⟩
  | node15Leaf =>
    rw [LeafType.shrunk]
    split_ifs with hcnt
    · exact ⟨hcnt, hless⟩
    · exact ⟨(by decide : 2 ≤ 6).trans (Nat.le_of_succ_le_succ hleast), Nat.le_of_lt (not_le.1 hcnt)⟩
  | node256Leaf =>
    rw [LeafType.shrunk]
    split_ifs with hcnt
    · exact ⟨hcnt, hless⟩
    · exact ⟨(by decide : 7 ≤ 12).trans (Nat.le_of_succ_le_succ hleast), (not_lt.1 hcnt).trans (by decide)⟩

/-- A node stays of the right size when it gets another child. -/
theorem fits_insertByte (h : Fits (Sizes.thresholds.node type) type.capacity keys) (hnew : byte ∉ keys) :
    Fits (Sizes.thresholds.node (if keys.length = type.capacity then type.grown else type))
      (if keys.length = type.capacity then type.grown else type).capacity (insertByte byte keys) := by
  have hsized := NodeType.sized_grown ⟨h.least_le, h.le_most⟩
    (length_le_of_sorted (nodup_cons.2 ⟨hnew, h.nodup⟩))
  rw [← length_insertByte byte] at hsized
  exact ⟨sorted_insertByte h.sorted hnew, hsized.1, hsized.2⟩

theorem fits_insertByte_leaf {type : LeafType}
    (h : Fits (Sizes.thresholds.leaf type) type.capacity bytes) (hnew : byte ∉ bytes) :
    Fits (Sizes.thresholds.leaf (if bytes.length = type.capacity then type.grown else type))
      (if bytes.length = type.capacity then type.grown else type).capacity (insertByte byte bytes) := by
  have hsized := LeafType.sized_grown ⟨h.least_le, h.le_most⟩
    (length_le_of_sorted (nodup_cons.2 ⟨hnew, h.nodup⟩))
  rw [← length_insertByte byte] at hsized
  exact ⟨sorted_insertByte h.sorted hnew, hsized.1, hsized.2⟩

theorem length_erase_add_one (h : byte ∈ keys) : (keys.erase byte).length + 1 = keys.length := by
  rw [length_erase_of_mem h, Nat.sub_add_cancel (length_pos_of_mem h)]

/-- A node stays of the right size when it loses a child, unless there is only one child left. -/
theorem fits_erase (h : Fits (Sizes.thresholds.node type) type.capacity keys) (hmem : byte ∈ keys)
    (hlft : type = .node4 → (keys.erase byte).length ≠ 1) :
    Fits (Sizes.thresholds.node (type.shrunk (keys.erase byte).length))
      (type.shrunk (keys.erase byte).length).capacity (keys.erase byte) := by
  have hsized : type.Sized ((keys.erase byte).length + 1) := by
    rw [length_erase_add_one hmem]
    exact ⟨h.least_le, h.le_most⟩
  have hshrunk := NodeType.sized_shrunk hsized hlft
  exact ⟨h.sorted.sublist erase_sublist, hshrunk.1, hshrunk.2⟩

theorem fits_erase_leaf {type : LeafType}
    (h : Fits (Sizes.thresholds.leaf type) type.capacity bytes) (hmem : byte ∈ bytes)
    (hlft : type = .node7Leaf → (bytes.erase byte).length ≠ 1) :
    Fits (Sizes.thresholds.leaf (type.shrunk (bytes.erase byte).length))
      (type.shrunk (bytes.erase byte).length).capacity (bytes.erase byte) := by
  have hsized : type.Sized ((bytes.erase byte).length + 1) := by
    rw [length_erase_add_one hmem]
    exact ⟨h.least_le, h.le_most⟩
  have hshrunk := LeafType.sized_shrunk hsized hlft
  exact ⟨h.sorted.sublist erase_sublist, hshrunk.1, hshrunk.2⟩

/-! ## Chains of prefixes -/

/-- Whether a node is a further prefix of a chain, and not a gate. -/
def Node.continues (node : Node) : Bool := node.isPrefix && !node.gate

/-- The bytes of a chain of prefixes. -/
def chainBytes : Node → List UInt8
  | .prefixNode false data child => data ++ chainBytes child
  | _ => []

/-- The node behind a chain of prefixes. -/
def chainRest : Node → Node
  | .prefixNode false _ child => chainRest child
  | node => node

section Chains

variable {n : ℕ} (hn : 0 < n)

theorem newPrefix_nil : newPrefix n [] child = child := rfl

theorem isInlined_setGate (gate : Bool) (node : Node) : (node.setGate gate).isInlined = node.isInlined := by
  cases node <;> rfl

include hn

theorem newChain_eq {nodes nodes' : ℕ} (h : bytes.length ≤ nodes)
    (h' : bytes.length ≤ nodes') : newChain n nodes bytes child = newChain n nodes' bytes child := by
  induction nodes generalizing nodes' bytes with
  | zero =>
    obtain rfl := eq_nil_of_length_eq_zero (Nat.le_zero.1 h)
    cases nodes' <;> rfl
  | succ nodes ih =>
    cases nodes' with
    | zero =>
      obtain rfl := eq_nil_of_length_eq_zero (Nat.le_zero.1 h')
      rfl
    | succ nodes' =>
      have hdrop : (bytes.drop n).length + n = bytes.length ∨ (bytes.drop n).length = 0 := by
        rw [length_drop]
        omega
      rw [newChain, newChain, @ih (bytes.drop n) nodes' (by omega) (by omega)]

theorem newPrefix_of_ne_nil (h : bytes ≠ []) :
    newPrefix n bytes child = .prefixNode false (bytes.take n) (newPrefix n (bytes.drop n) child) := by
  obtain ⟨byte, bytes, rfl⟩ := exists_cons_of_ne_nil h
  refine congrArg _ (newChain_eq hn ?_ le_rfl)
  rw [length_drop, length_cons]
  omega

theorem newPrefix_of_length_le (h : bytes ≠ []) (hle : bytes.length ≤ n) :
    newPrefix n bytes child = .prefixNode false bytes child := by
  rw [newPrefix_of_ne_nil hn h, take_of_length_le hle, drop_of_length_le hle, newPrefix_nil]

theorem newPrefix_append (h : data.length = n) (bytes : List UInt8) :
    newPrefix n (data ++ bytes) child = .prefixNode false data (newPrefix n bytes child) := by
  have hne : data ++ bytes ≠ [] := by
    rintro heq
    rw [(append_eq_nil_iff.1 heq).1] at h
    exact hn.ne h
  rw [newPrefix_of_ne_nil hn hne, ← h, take_left, drop_left]

/-- The bytes of a chain are taken a node at a time. -/
theorem chainInduction {motive : List UInt8 → Prop} (nil : motive [])
    (step : ∀ bytes, bytes ≠ [] → motive (bytes.drop n) → motive bytes) (bytes : List UInt8) :
    motive bytes := by
  induction h : bytes.length using Nat.strong_induction_on generalizing bytes with
  | _ length ih =>
    cases bytes with
    | nil => exact nil
    | cons byte bytes =>
      refine step _ (cons_ne_nil _ _) (ih _ ?_ _ rfl)
      rw [← h, length_drop, length_cons]
      omega

theorem isPrefix_newPrefix (h : bytes ≠ []) : (newPrefix n bytes child).isPrefix = true := by
  rw [newPrefix_of_ne_nil hn h]
  rfl

theorem isInlined_newPrefix (h : child.isInlined = false) (bytes : List UInt8) :
    (newPrefix n bytes child).isInlined = false := by
  by_cases hbs : bytes = []
  · rw [hbs, newPrefix_nil, h]
  · rw [newPrefix_of_ne_nil hn hbs]
    rfl

theorem setGate_newPrefix (h : bytes ≠ []) :
    (newPrefix n bytes child).setGate false = newPrefix n bytes child := by
  rw [newPrefix_of_ne_nil hn h]
  rfl

theorem appendBytes_spec {onTail : Bool → List UInt8 → Node} {tail : List UInt8} {rest : Node}
    (hTail : ∀ gate data, data ≠ [] → data.length ≤ n →
      onTail gate data = (newPrefix n (data ++ tail) rest).setGate gate)
    (bytes : List UInt8) {gate : Bool} (hdata : data ≠ []) (hle : data.length ≤ n) :
    appendBytes n onTail bytes gate data = (newPrefix n (data ++ (bytes ++ tail)) rest).setGate gate := by
  induction bytes generalizing gate data with
  | nil => exact hTail gate data hdata hle
  | cons byte bytes ih =>
    rw [appendBytes]
    by_cases hfull : data.length = n
    · have hne : [byte] ++ (bytes ++ tail) ≠ [] := cons_ne_nil _ _
      rw [if_neg (not_not.2 hfull), @ih [byte] false (cons_ne_nil _ _) hn, setGate_newPrefix hn hne,
        newPrefix_append hn hfull]
      rfl
    · rw [if_pos hfull, ih (append_ne_nil_of_left_ne_nil hdata _), append_assoc]
      · rfl
      · rw [length_append, length_singleton]
        exact lt_of_le_of_ne hle hfull

theorem appendPrefix_spec (node : Node) {gate : Bool} (hdata : data ≠ []) (hle : data.length ≤ n) :
    appendPrefix n node gate data = (newPrefix n (data ++ chainBytes node) (chainRest node)).setGate gate := by
  have hoth : ∀ other, Node.prefixNode gate data other = (newPrefix n (data ++ []) other).setGate gate := by
    intro other
    rw [append_nil, newPrefix_of_length_le hn hdata hle]
    rfl
  induction node generalizing gate data with
  | empty => exact hoth _
  | inlined rowId => exact hoth _
  | inner gate' type keys children ih => exact hoth _
  | leafNode gate' type bytes => exact hoth _
  | prefixNode gate' bytes child ih =>
    cases gate' with
    | true => exact hoth _
    | false =>
      refine appendBytes_spec hn (fun gate data hdata hle => ?_) bytes hdata hle
      refine ih hdata hle fun other => ?_
      rw [append_nil, newPrefix_of_length_le hn hdata hle]
      rfl

/-- Changing the last prefix of a chain. -/
theorem mapTail_spec {onTail : Bool → List UInt8 → Node} {tail : List UInt8} {rest : Node}
    (hTail : ∀ gate data, data ≠ [] → data.length ≤ n →
      onTail gate data = (newPrefix n (data ++ tail) rest).setGate gate)
    (hch : child.isPrefix = false) (hbs : bytes ≠ []) (gate : Bool) :
    mapTail onTail ((newPrefix n bytes child).setGate gate) = (newPrefix n (bytes ++ tail) rest).setGate gate := by
  induction bytes using chainInduction hn generalizing gate with
  | nil => exact absurd rfl hbs
  | step bytes _ ih =>
    rw [newPrefix_of_ne_nil hn hbs]
    change mapTail onTail (.prefixNode gate (bytes.take n) (newPrefix n (bytes.drop n) child)) = _
    rw [mapTail]
    by_cases hdrop : bytes.drop n = []
    · have hle : bytes.length ≤ n := drop_eq_nil_iff.1 hdrop
      rw [hdrop, newPrefix_nil, hch, if_neg Bool.false_ne_true, take_of_length_le hle, hTail _ _ hbs hle]
    · have hlt : n < bytes.length := by
        rw [drop_eq_nil_iff] at hdrop
        exact not_le.1 hdrop
      have hne : bytes.drop n ++ tail ≠ [] := append_ne_nil_of_left_ne_nil hdrop _
      have hrst := ih hdrop false
      rw [setGate_newPrefix hn hdrop, setGate_newPrefix hn hne] at hrst
      rw [isPrefix_newPrefix hn hdrop, if_pos rfl, hrst]
      conv_rhs => rw [← take_append_drop n bytes]
      rw [append_assoc, newPrefix_append hn (length_take_of_le hlt.le)]
      rfl

end Chains

/-! ## What a subtree holds -/

/-- A subtree outside of gates has a row id behind the rest of a key. -/
def Holds (node : Node) (suffix : List UInt8) (rowId : RowId) : Prop :=
  ∃ leaf ∈ leaves node, leaf.1 = suffix ∧ rowId ∈ gateRows leaf.2 []

theorem not_holds_empty (suffix : List UInt8) (rowId : RowId) : ¬ Holds .empty suffix rowId := by
  rintro ⟨leaf, hlf, -⟩
  exact absurd hlf not_mem_nil

variable {suffix : List UInt8} {rowId : RowId}

theorem holds_leaf {node : Node} (h : node.isInlined ∨ node.gate) :
    Holds node suffix rowId ↔ suffix = [] ∧ rowId ∈ gateRows node [] := by
  rw [Holds, leaves_of_leaf h]
  constructor
  · rintro ⟨leaf, hlf, rfl, hrow⟩
    rw [mem_singleton.1 hlf] at hrow ⊢
    exact ⟨rfl, hrow⟩
  · rintro ⟨rfl, hrow⟩
    exact ⟨_, mem_singleton_self _, rfl, hrow⟩

theorem holds_inlined {inlined : RowId} : Holds (.inlined inlined) suffix rowId ↔ suffix = [] ∧ rowId = inlined := by
  rw [holds_leaf (.inl rfl), gateRows, mem_singleton]

theorem holds_prefixNode :
    Holds (.prefixNode false data child) suffix rowId ↔ ∃ rest, suffix = data ++ rest ∧ Holds child rest rowId := by
  constructor
  · rintro ⟨leaf, hlf, rfl, hrow⟩
    obtain ⟨leaf', hlf', rfl⟩ := mem_map.1 hlf
    exact ⟨leaf'.1, rfl, leaf', hlf', rfl, hrow⟩
  · rintro ⟨_, rfl, leaf, hlf, rfl, hrow⟩
    exact ⟨(data ++ leaf.1, leaf.2), mem_map_of_mem (f := fun leaf => (data ++ leaf.1, leaf.2)) hlf, rfl, hrow⟩

theorem holds_inner {children : UInt8 → Node} : Holds (.inner false type keys children) suffix rowId ↔
      ∃ byte ∈ keys, ∃ rest, suffix = byte :: rest ∧ Holds (children byte) rest rowId := by
  constructor
  · rintro ⟨leaf, hlf, rfl, hrow⟩
    obtain ⟨byte, hby, hlf⟩ := mem_flatMap.1 hlf
    obtain ⟨leaf', hlf', rfl⟩ := mem_map.1 hlf
    exact ⟨byte, hby, leaf'.1, rfl, leaf', hlf', rfl, hrow⟩
  · rintro ⟨byte, hby, _, rfl, leaf, hlf, rfl, hrow⟩
    exact ⟨(byte :: leaf.1, leaf.2), mem_flatMap.2 ⟨byte, hby,
      mem_map_of_mem (f := fun leaf => (byte :: leaf.1, leaf.2)) hlf⟩, rfl, hrow⟩

theorem holds_newPrefix {n : ℕ} (hn : 0 < n) :
    Holds (newPrefix n bytes child) suffix rowId ↔ ∃ rest, suffix = bytes ++ rest ∧ Holds child rest rowId := by
  induction bytes using chainInduction hn generalizing suffix with
  | nil => simp [newPrefix_nil]
  | step bytes hne ih =>
    rw [newPrefix_of_ne_nil hn hne, holds_prefixNode]
    constructor
    · rintro ⟨rest, rfl, h⟩
      obtain ⟨rest', rfl, h'⟩ := ih.1 h
      exact ⟨rest', by rw [← append_assoc, take_append_drop], h'⟩
    · rintro ⟨rest, rfl, h⟩
      exact ⟨bytes.drop n ++ rest, by rw [← append_assoc, take_append_drop], ih.2 ⟨rest, rfl, h⟩⟩

theorem gateRows_setGate (gate : Bool) (node : Node) (path : List UInt8) :
    gateRows (node.setGate gate) path = gateRows node path := by
  cases node <;> rfl

theorem gateRows_newPrefix {n : ℕ} (hn : 0 < n) (bytes : List UInt8) (child : Node) (path : List UInt8) :
    gateRows (newPrefix n bytes child) path = gateRows child (path ++ bytes) := by
  induction bytes using chainInduction hn generalizing path with
  | nil => rw [newPrefix_nil, append_nil]
  | step bytes hne ih =>
    rw [newPrefix_of_ne_nil hn hne, gateRows, ih, append_assoc, take_append_drop]

/-! ## The shape of chains -/

theorem Layout.one_lt_prefixCount (layout : Layout) : 1 < layout.prefixCount :=
  Nat.lt_of_lt_of_le (by decide) layout.rowIdCount_le

theorem Layout.prefixCount_pos (layout : Layout) : 0 < layout.prefixCount :=
  Nat.lt_of_succ_lt layout.one_lt_prefixCount

section

variable {layout : Layout} {sizes : Sizes}

theorem outside_newPrefix (h : Outside layout sizes child) (hch : child.continues = false)
    (bytes : List UInt8) : Outside layout sizes (newPrefix layout.prefixCount bytes child) := by
  have hn := layout.prefixCount_pos
  induction bytes using chainInduction hn with
  | nil => exact h
  | step bytes hne ih =>
    rw [newPrefix_of_ne_nil hn hne]
    refine ⟨?_, length_take_le _ _, fun hst hgate => ?_, ih⟩
    · rw [Ne, take_eq_nil_iff, not_or]
      exact ⟨hn.ne', hne⟩
    · refine length_take_of_le (le_of_not_gt fun hlt => ?_)
      rw [drop_of_length_le hlt.le, newPrefix_nil] at hst hgate
      rw [Node.continues, hst, hgate] at hch
      exact absurd hch Bool.noConfusion

variable {node : Node}

theorem continues_of_gate (h : node.gate = true) : node.continues = false := by
  rw [Node.continues, h, Bool.not_true, Bool.and_false]

theorem continues_of_isInlined (h : node.isInlined = true) : node.continues = false := by
  cases node with
  | inlined rowId => rfl
  | _ => exact absurd h Bool.noConfusion

theorem continues_of_not_isPrefix (h : node.isPrefix = false) : node.continues = false := by
  rw [Node.continues, h, Bool.false_and]

theorem continues_chainRest (node : Node) : (chainRest node).continues = false := by
  induction node with
  | prefixNode gate data child ih =>
    cases gate with
    | true => rfl
    | false => exact ih
  | _ => rfl

theorem outside_chainRest (h : Outside layout sizes node) : Outside layout sizes (chainRest node) := by
  induction node with
  | prefixNode gate data child ih =>
    cases gate with
    | true => exact h
    | false => exact ih h.2.2.2
  | _ => exact h

theorem chain_of_not_continues (h : node.continues = false) : chainBytes node = [] ∧ chainRest node = node := by
  cases node with
  | prefixNode gate data child =>
    cases gate with
    | true => exact ⟨rfl, rfl⟩
    | false => exact absurd h Bool.noConfusion
  | _ => exact ⟨rfl, rfl⟩

/-- A chain of prefixes whose nodes are full up to the last one. -/
theorem newPrefix_data (hne : data ≠ [])
    (hle : data.length ≤ layout.prefixCount) (hfull : child.continues = true → data.length = layout.prefixCount)
    (hch : newPrefix layout.prefixCount (chainBytes child) (chainRest child) = child) :
    newPrefix layout.prefixCount (data ++ chainBytes child) (chainRest child) = .prefixNode false data child := by
  cases hcont : child.continues with
  | true => rw [newPrefix_append layout.prefixCount_pos (hfull hcont), hch]
  | false =>
    obtain ⟨hbs, hrst⟩ := chain_of_not_continues hcont
    rw [hbs, hrst, append_nil, newPrefix_of_length_le layout.prefixCount_pos hne hle]

theorem newPrefix_chain (h : Outside layout sizes node) :
    newPrefix layout.prefixCount (chainBytes node) (chainRest node) = node := by
  induction node with
  | prefixNode gate data child ih =>
    cases gate with
    | true => rfl
    | false =>
      refine newPrefix_data h.1 h.2.1 (fun hcont => ?_) (ih h.2.2.2)
      rw [Node.continues, Bool.and_eq_true, Bool.not_eq_true'] at hcont
      exact h.2.2.1 hcont.1 hcont.2
  | _ => rfl

/-! ## Going down with the rest of a key -/

section

variable {suffix : List UInt8}

/-- The rest of a key at a leaf. -/
theorem suffix_eq_nil {leaf : Node} (hlf : leaf.isInlined ∨ leaf.gate)
    (hfree : ∀ l ∈ leaves leaf, PrefixFree l.1 suffix) : suffix = [] := by
  rw [leaves_of_leaf hlf] at hfree
  exact ((hfree _ (mem_singleton_self _)).1 nil_prefix).symm

variable {children : UInt8 → Node}

theorem suffix_ne_nil (h : Outside layout sizes (.inner false type keys children))
    (hfree : ∀ leaf ∈ leaves (.inner false type keys children), PrefixFree leaf.1 suffix) : suffix ≠ [] := by
  rintro rfl
  obtain ⟨leaf, hlf⟩ := exists_mem_of_ne_nil _ (leaves_ne_nil h)
  have hnil := (hfree leaf hlf).2 nil_prefix
  obtain ⟨byte, -, hmem⟩ := mem_flatMap.1 hlf
  obtain ⟨leaf', -, rfl⟩ := mem_map.1 hmem
  exact absurd hnil (cons_ne_nil _ _)

/-- No key ends within a prefix. -/
theorem bytes_eq_nil (h : Outside layout sizes (.prefixNode false (suffix ++ bytes) child))
    (hfree : ∀ leaf ∈ leaves (.prefixNode false (suffix ++ bytes) child), PrefixFree leaf.1 suffix) :
    bytes = [] := by
  obtain ⟨leaf, hlf⟩ := exists_mem_of_ne_nil _ (leaves_ne_nil h)
  have hpre := hfree leaf hlf
  obtain ⟨leaf', -, rfl⟩ := mem_map.1 hlf
  have heq := hpre.2 ⟨bytes ++ leaf'.1, (append_assoc _ _ _).symm⟩
  rw [append_assoc] at heq
  exact (append_eq_nil_iff.1 (append_right_eq_self.1 heq)).1

theorem mem_leaves_inner (hby : byte ∈ keys) {leaf : List UInt8 × Node} (hlf : leaf ∈ leaves (children byte)) :
    (byte :: leaf.1, leaf.2) ∈ leaves (.inner false type keys children) :=
  mem_flatMap.2 ⟨byte, hby, mem_map_of_mem (f := fun leaf => (byte :: leaf.1, leaf.2)) hlf⟩

theorem mem_leaves_prefixNode {leaf : List UInt8 × Node} (hlf : leaf ∈ leaves child) :
    (data ++ leaf.1, leaf.2) ∈ leaves (.prefixNode false data child) :=
  mem_map_of_mem (f := fun leaf => (data ++ leaf.1, leaf.2)) hlf

theorem free_inner (hfree : ∀ leaf ∈ leaves (.inner false type keys children), PrefixFree leaf.1 (byte :: suffix))
    (hby : byte ∈ keys) : ∀ leaf ∈ leaves (children byte), PrefixFree leaf.1 suffix :=
  fun _ hlf => (hfree _ (mem_leaves_inner hby hlf)).tail

theorem free_prefixNode (hfree : ∀ leaf ∈ leaves (.prefixNode false data child), PrefixFree leaf.1 (data ++ suffix)) :
    ∀ leaf ∈ leaves child, PrefixFree leaf.1 suffix := by
  intro leaf hlf
  have hpre := hfree _ (mem_leaves_prefixNode hlf)
  exact ⟨fun hle => append_cancel_left (hpre.1 ((prefix_append_right_inj data).2 hle)),
    fun hle => append_cancel_left (hpre.2 ((prefix_append_right_inj data).2 hle))⟩

end

theorem drop_eq_cons {key suffix : List UInt8} {depth : ℕ} (h : key.drop depth = byte :: suffix) :
    key[depth]? = some byte ∧ key.drop (depth + 1) = suffix := by
  constructor
  · rw [← head?_drop, h]
    rfl
  · rw [← tail_drop, h]
    rfl

theorem drop_eq_append {key data suffix : List UInt8} {depth : ℕ} (h : key.drop depth = data ++ suffix) :
    key.drop (depth + data.length) = suffix := by
  rw [← drop_drop, h, drop_left]

/-! ## Nodes inside a gate -/

theorem eq_of_concat {path key : List UInt8} {byte byte' : UInt8} (h : path ++ [byte] <+: key)
    (h' : path ++ [byte'] <+: key) : byte = byte' := by
  have heq := (prefix_of_prefix_length_le h h' (by simp)).eq_of_length (by simp)
  exact (cons.inj (append_cancel_left heq)).1

theorem isPrefix_concat (path : List UInt8) (byte : UInt8) (rest : List UInt8) :
    path ++ [byte] <+: path ++ byte :: rest :=
  ⟨rest, append_assoc path [byte] rest⟩

theorem Outside.isEmpty_eq (h : Outside layout sizes node) : node.isEmpty = false := by
  cases node with
  | empty => exact absurd h not_false
  | _ => rfl

namespace InGate

variable {path : List UInt8} {node : Node} {root : Bool}

section

variable (h : InGate layout sizes node root path)

include h

theorem isEmpty_eq : node.isEmpty = false := by
  cases node with
  | empty => exact absurd h not_false
  | _ => rfl

theorem gate_eq : node.gate = root := by
  cases node with
  | empty => exact absurd h not_false
  | inlined rowId => exact h.1.symm
  | prefixNode gate data child => exact h.1
  | inner gate type keys children => exact h.1
  | leafNode gate type bytes => exact h.1.trans h.2.1.symm

theorem length_le_rowIdCount (hinl : node.isInlined = false) : path.length ≤ rowIdCount := by
  induction node generalizing root path with
  | empty => exact absurd h not_false
  | inlined rowId => exact absurd hinl Bool.noConfusion
  | prefixNode gate data child ih =>
    refine le_trans ?_ (ih h.2.2.2.2.2 h.2.2.2.2.1)
    rw [length_append]
    exact Nat.le_add_right _ _
  | inner gate type keys children ih => exact h.2.1.le
  | leafNode gate type bytes => exact h.2.2.1.le

end

/-- A prefix node has room for all bytes of a row id but the last one: there are no chains. -/
theorem isPrefix_child {gate root : Bool} {data path : List UInt8}
    (h : InGate layout sizes (.prefixNode gate data child) root path) : child.isPrefix = false := by
  obtain ⟨-, hne, -, hfull, hinl, hch⟩ := h
  rw [Bool.eq_false_iff]
  intro hst
  have hlayout := layout.rowIdCount_le
  have hdata := hfull hst
  cases child with
  | prefixNode gate' data' child' =>
    have hle := length_le_rowIdCount hch.2.2.2.2.2 hch.2.2.2.2.1
    have hpos := length_pos_of_ne_nil hch.2.1
    rw [length_append, length_append] at hle
    omega
  | _ => exact absurd hst Bool.noConfusion

theorem prefix_of_mem (h : InGate layout sizes node root path)
    {rowId : RowId} (hmem : rowId ∈ gateRows node path) : path <+: rowIdKey rowId := by
  induction node generalizing root path with
  | empty => exact absurd h not_false
  | inlined inlined =>
    rw [gateRows, mem_singleton] at hmem
    exact hmem ▸ h.2
  | prefixNode gate data child ih => exact (prefix_append path data).trans (ih h.2.2.2.2.2 hmem)
  | inner gate type keys children ih =>
    obtain ⟨byte, hby, hmem⟩ := mem_flatMap.1 hmem
    exact (prefix_append path [byte]).trans (ih byte (h.2.2.2 byte hby) hmem)
  | leafNode gate type bytes =>
    obtain ⟨byte, -, rfl⟩ := mem_map.1 hmem
    rw [rowIdKey_getRowId]
    · exact prefix_append path [byte]
    · rw [length_append, h.2.2.1, length_singleton]

theorem gateRows_ne_nil (h : InGate layout sizes node root path) : gateRows node path ≠ [] := by
  induction node generalizing root path with
  | empty => exact absurd h not_false
  | inlined rowId => exact cons_ne_nil _ _
  | prefixNode gate data child ih => exact ih h.2.2.2.2.2
  | inner gate type keys children ih =>
    intro hnil
    obtain ⟨byte, hby⟩ := exists_mem_of_ne_nil _ (h.2.2.1.ne_nil (sizes.node_pos type))
    exact ih byte (h.2.2.2 byte hby) (flatMap_eq_nil_iff.1 hnil byte hby)
  | leafNode gate type bytes =>
    intro hnil
    exact h.2.2.2.ne_nil (sizes.leaf_pos type) (map_eq_nil_iff.1 hnil)

/-- A node that is not an inlined row id has two row ids. -/
theorem two_le_length (h : InGate layout .thresholds node root path) (hinl : node.isInlined = false) :
    2 ≤ (gateRows node path).length := by
  induction node generalizing root path with
  | empty => exact absurd h not_false
  | inlined rowId => exact absurd hinl Bool.noConfusion
  | prefixNode gate data child ih => exact ih h.2.2.2.2.2 h.2.2.2.2.1
  | inner gate type keys children ih =>
    have htwo : 2 ≤ keys.length := le_trans (by cases type <;> decide) h.2.2.1.least_le
    refine htwo.trans ?_
    rw [gateRows, length_flatMap, ← length_map fun byte => (gateRows (children byte) (path ++ [byte])).length]
    refine length_le_sum_of_one_le _ fun count hcnt => ?_
    obtain ⟨byte, hby, rfl⟩ := mem_map.1 hcnt
    exact length_pos_of_ne_nil (gateRows_ne_nil (h.2.2.2 byte hby))
  | leafNode gate type bytes =>
    rw [gateRows, length_map]
    exact le_trans (by cases type <;> decide) h.2.2.2.least_le

/-- A subtree behind the gate is a gate with two row ids. -/
theorem gateShape (h : InGate layout .thresholds node true []) : GateShape layout .thresholds node := by
  refine ⟨h, h.two_le_length ?_⟩
  cases node with
  | inlined rowId => exact absurd h.1 Bool.noConfusion
  | _ => rfl

theorem newPrefix {bytes path : List UInt8} {rest : Node} (hne : bytes ≠ [])
    (hrst : InGate layout sizes rest false (path ++ bytes)) (hst : rest.isPrefix = false)
    (hinl : rest.isInlined = false) (root : Bool) :
    InGate layout sizes ((newPrefix layout.prefixCount bytes rest).setGate root) root path := by
  have hlen := length_le_rowIdCount hrst hinl
  have hle : bytes.length ≤ layout.prefixCount := by
    rw [length_append] at hlen
    exact (Nat.le_add_left _ _).trans (hlen.trans layout.rowIdCount_le)
  rw [newPrefix_of_length_le layout.prefixCount_pos hne hle]
  exact ⟨rfl, hne, hle, fun h => absurd h (by rw [hst]; exact Bool.false_ne_true), hinl, hrst⟩

theorem chain (h : InGate layout sizes node false path) :
    Art.newPrefix layout.prefixCount (chainBytes node) (chainRest node) = node ∧
      InGate layout sizes (chainRest node) false (path ++ chainBytes node) ∧ (chainRest node).isPrefix = false ∧
      (chainRest node).isInlined = node.isInlined := by
  cases node with
  | prefixNode gate data child =>
    obtain rfl : gate = false := h.1
    have hst := h.isPrefix_child
    obtain ⟨hbs, hrst⟩ := chain_of_not_continues (continues_of_not_isPrefix hst)
    rw [chainBytes, chainRest, hbs, hrst, append_nil]
    exact ⟨newPrefix_of_length_le layout.prefixCount_pos h.2.1 h.2.2.1, h.2.2.2.2.2, hst, h.2.2.2.2.1⟩
  | _ => exact ⟨rfl, (append_nil path).symm ▸ h, rfl, rfl⟩

end InGate

/-! ## Replacing a subtree -/

variable (layout)

/-- A subtree outside of gates for another one, with one row id added or removed. -/
structure Replaces (old new : Node) (suffix : List UInt8) (rowId : RowId) (present : Prop) : Prop where
  outside : Outside layout .thresholds new
  others : ∀ s x, ¬ (s = suffix ∧ x = rowId) → (Holds new s x ↔ Holds old s x)
  self : Holds new suffix rowId ↔ present

/-- A subtree inside a gate for another one. -/
structure ReplacesIn (old new : Node) (root : Bool) (path : List UInt8) (rowId : RowId) (present : Prop) : Prop where
  inGate : InGate layout .thresholds new root path
  others : ∀ x, x ≠ rowId → (x ∈ gateRows new path ↔ x ∈ gateRows old path)
  self : rowId ∈ gateRows new path ↔ present

variable {layout} {old new : Node} {suffix path data : List UInt8} {rowId : RowId} {present : Prop}

namespace Replaces

theorem refl (h : Outside layout .thresholds old) (hself : Holds old suffix rowId ↔ present) :
    Replaces layout old old suffix rowId present :=
  ⟨h, fun _ _ _ => Iff.rfl, hself⟩

theorem prefixNode (h : Outside layout .thresholds (.prefixNode false data old))
    (hnew : Replaces layout old new suffix rowId present) (hcont : new.continues = true → old.continues = true) :
    Replaces layout (.prefixNode false data old) (.prefixNode false data new) (data ++ suffix) rowId present := by
  refine ⟨⟨h.1, h.2.1, fun hst hgate => ?_, hnew.outside⟩, fun s x hne => ?_, ?_⟩
  · have hold := hcont (by rw [Node.continues, hst, hgate]; rfl)
    rw [Node.continues, Bool.and_eq_true, Bool.not_eq_true'] at hold
    exact h.2.2.1 hold.1 hold.2
  · rw [holds_prefixNode, holds_prefixNode]
    refine exists_congr fun rest => and_congr_right fun hs => hnew.others rest x ?_
    rintro ⟨rfl, hx⟩
    exact hne ⟨hs, hx⟩
  · rw [holds_prefixNode, ← hnew.self]
    constructor
    · rintro ⟨rest, heq, hrst⟩
      rwa [append_cancel_left heq]
    · intro hrst
      exact ⟨suffix, rfl, hrst⟩

theorem inner {children : UInt8 → Node}
    (h : Outside layout .thresholds (.inner false type keys children)) (hby : byte ∈ keys)
    (hnew : Replaces layout (children byte) new suffix rowId present) :
    Replaces layout (.inner false type keys children) (.inner false type keys (update children byte new))
      (byte :: suffix) rowId present := by
  refine ⟨⟨h.1, fun b hb => ?_⟩, fun s x hne => ?_, ?_⟩
  · by_cases heq : b = byte
    · rw [heq, update_self]
      exact hnew.outside
    · rw [update_of_ne heq]
      exact h.2 b hb
  · rw [holds_inner, holds_inner]
    refine exists_congr fun b => and_congr_right fun _ => exists_congr fun rest => and_congr_right fun hs => ?_
    by_cases heq : b = byte
    · rw [heq, update_self]
      refine hnew.others rest x ?_
      rintro ⟨rfl, hx⟩
      exact hne ⟨heq ▸ hs, hx⟩
    · rw [update_of_ne heq]
  · rw [holds_inner, ← hnew.self]
    constructor
    · rintro ⟨b, -, rest, heq, hrst⟩
      obtain ⟨rfl, rfl⟩ := cons.inj heq
      rwa [update_self] at hrst
    · intro hrst
      exact ⟨byte, hby, suffix, rfl, by rwa [update_self]⟩

theorem of_inGate (hold : old.gate = true) (hnew : ReplacesIn layout old new true [] rowId present) :
    Replaces layout old new [] rowId present := by
  have hgate := hnew.inGate.gate_eq
  refine ⟨outside_of_leaf (.inr ⟨hgate, hnew.inGate.gateShape⟩), fun s x hne => ?_, ?_⟩
  · rw [holds_leaf (.inr hgate), holds_leaf (.inr hold)]
    exact and_congr_right fun hs => hnew.others x fun hx => hne ⟨hs, hx⟩
  · rw [holds_leaf (.inr hgate), and_iff_right rfl, hnew.self]

end Replaces

namespace ReplacesIn

theorem refl {root : Bool} (h : InGate layout .thresholds old root path)
    (hself : rowId ∈ gateRows old path ↔ present) : ReplacesIn layout old old root path rowId present :=
  ⟨h, fun _ _ => Iff.rfl, hself⟩

theorem prefixNode {root : Bool} (h : InGate layout .thresholds (.prefixNode root data old) root path)
    (hnew : ReplacesIn layout old new false (path ++ data) rowId present) (hst : new.isPrefix = false)
    (hinl : new.isInlined = false) :
    ReplacesIn layout (.prefixNode root data old) (.prefixNode root data new) root path rowId present := by
  refine ⟨⟨rfl, h.2.1, h.2.2.1, fun h => ?_, hinl, hnew.inGate⟩, hnew.others, hnew.self⟩
  exact absurd h (by rw [hst]; exact Bool.false_ne_true)

theorem inner {root : Bool} {children : UInt8 → Node}
    (h : InGate layout .thresholds (.inner root type keys children) root path) (hby : byte ∈ keys)
    (hpath : path ++ [byte] <+: rowIdKey rowId)
    (hnew : ReplacesIn layout (children byte) new false (path ++ [byte]) rowId present) :
    ReplacesIn layout (.inner root type keys children) (.inner root type keys (update children byte new))
      root path rowId present := by
  refine ⟨⟨rfl, h.2.1, h.2.2.1, fun b hb => ?_⟩, fun x hne => ?_, ?_⟩
  · by_cases heq : b = byte
    · rw [heq, update_self]
      exact hnew.inGate
    · rw [update_of_ne heq]
      exact h.2.2.2 b hb
  · rw [gateRows, gateRows, mem_flatMap, mem_flatMap]
    refine exists_congr fun b => and_congr_right fun _ => ?_
    by_cases heq : b = byte
    · rw [heq, update_self]
      exact hnew.others x hne
    · rw [update_of_ne heq]
  · rw [gateRows, mem_flatMap, ← hnew.self]
    constructor
    · rintro ⟨b, hb, hmem⟩
      by_cases heq : b = byte
      · rwa [heq, update_self] at hmem
      · -- The row id goes on with another byte.
        rw [update_of_ne heq] at hmem
        exact absurd (eq_of_concat ((h.2.2.2 b hb).prefix_of_mem hmem) hpath) heq
    · intro hmem
      exact ⟨byte, hby, by rwa [update_self]⟩

end ReplacesIn

end

end Art

end WfOpt

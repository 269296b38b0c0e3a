import WfOpt.Index.ArtInsert

/-!
# Deletions from an adaptive radix tree

A deletion keeps the shape of a tree and removes the row id behind the key, unless it has to remove a `Node4` that
is deep in a gate (`deepPair`), where an inlined row id may get a prefix: the gate bit of the parent, which tells
what is inside of a gate, is only set for its first node.

A path into the tree is known by what it does to a replacement (`Opens`, `OpensIn`). The loop keeps these for the
last nodes above the current one.
-/

namespace WfOpt

open List

namespace Art

variable {layout : Layout} {n : ℕ} {bytes keys start suffix : List UInt8} {byte : UInt8} {type : NodeType}
  {child : Node} {children : UInt8 → Node} {path : List Frame} {rowId : RowId} {behind : Bool}

/-! ## The last byte of a row id -/

theorem bigEndian_succ (n x : ℕ) : bigEndian (n + 1) x = bigEndian n (x / 256) ++ [UInt8.ofNat x] := by
  induction n with
  | zero => simp [bigEndian]
  | succ n ih =>
    rw [bigEndian, ih, bigEndian, Nat.div_div_eq_div_mul, ← pow_succ']
    rfl

/-- A row id with another last byte. -/
def withLastByte (rowId : RowId) (byte : UInt8) : RowId :=
  (rowId &&& 0xFFFFFFFFFFFFFF00#64) ||| byte.toBitVec.setWidth 64

theorem toNat_withLastByte_div (rowId : RowId) (byte : UInt8) :
    (withLastByte rowId byte).toNat / 256 = rowId.toNat / 256 := by
  have h : withLastByte rowId byte >>> 8 = rowId >>> 8 := by
    rw [withLastByte, show (0xFFFFFFFFFFFFFF00#64) = BitVec.allOnes 64 <<< 8 from rfl]
    ext i hi
    have hhigh : rowId.getLsbD (8 + i) = true → 8 + i < 64 := BitVec.lt_of_getLsbD
    rw [BitVec.getElem_ushiftRight, BitVec.getElem_ushiftRight, BitVec.getLsbD_or, BitVec.getLsbD_and,
      BitVec.getLsbD_shiftLeft, BitVec.getLsbD_allOnes, BitVec.getLsbD_setWidth,
      BitVec.getLsbD_of_ge byte.toBitVec (8 + i) (by omega)]
    cases hbit : rowId.getLsbD (8 + i) with
    | false => simp
    | true => simp [hhigh hbit, hi]
  have hdiv := congrArg BitVec.toNat h
  rwa [BitVec.toNat_ushiftRight, BitVec.toNat_ushiftRight, Nat.shiftRight_eq_div_pow,
    Nat.shiftRight_eq_div_pow] at hdiv

theorem ofNat_withLastByte (rowId : RowId) (byte : UInt8) : UInt8.ofNat (withLastByte rowId byte).toNat = byte := by
  have h : (withLastByte rowId byte).setWidth 8 = byte.toBitVec := by
    rw [withLastByte, show (0xFFFFFFFFFFFFFF00#64) = BitVec.allOnes 64 <<< 8 from rfl]
    simp
  rw [← UInt8.toBitVec_inj, ← h]
  rfl

theorem rowIdKey_eq_concat (rowId : RowId) :
    rowIdKey rowId = flipSign (bigEndian rowIdCount (rowId.toNat / 256)) ++ [UInt8.ofNat rowId.toNat] := by
  rw [rowIdKey, encodeSignedData, bigEndian_succ, rowIdCount, bigEndian]
  rfl

theorem rowIdKey_withLastByte {path : List UInt8} (h : path ++ [byte] = rowIdKey rowId) (other : UInt8) :
    rowIdKey (withLastByte rowId other) = path ++ [other] := by
  rw [rowIdKey_eq_concat] at h
  rw [rowIdKey_eq_concat, toNat_withLastByte_div, ofNat_withLastByte, ← (append_inj' h rfl).1]

/-! ## A `Node4` with one child left -/

theorem setGate_setGate (gate gate' : Bool) (node : Node) : (node.setGate gate).setGate gate' = node.setGate gate' := by
  cases node <;> rfl

theorem appendByte_spec (hn : 0 < n) (byte : UInt8) {onTail : Bool → List UInt8 → Node}
    (hTail : ∀ gate data, data ≠ [] → data.length ≤ n →
      onTail gate data = (newPrefix n (data ++ chainBytes child) (chainRest child)).setGate gate)
    {node4 : Node} (hnode4 : node4.isPrefix = false) (hbs : bytes ≠ []) (gate : Bool) :
    mapTail (fun gate data => appendBytes n onTail [byte] gate data) ((newPrefix n bytes node4).setGate gate) =
      (newPrefix n (bytes ++ byte :: chainBytes child) (chainRest child)).setGate gate :=
  mapTail_spec hn (fun _ _ hdata hle => appendBytes_spec hn hTail [byte] hdata hle) hnode4 hbs gate

theorem appendNode_spec (hn : 0 < n) (hch : child.continues = false) (gate : Bool)
    {data : List UInt8} (hdata : data ≠ []) (hle : data.length ≤ n) :
    Node.prefixNode gate data child = (newPrefix n (data ++ chainBytes child) (chainRest child)).setGate gate := by
  obtain ⟨hbs, hrst⟩ := chain_of_not_continues hch
  rw [hbs, hrst, append_nil, newPrefix_of_length_le hn hdata hle]
  rfl

section

variable {parent node4 : Ref} {gate : Bool}

theorem concat_of_chain (hn : 0 < n) {node : Node} (hpar : parent.node = (newPrefix n bytes node).setGate gate)
    (hbs : bytes ≠ []) (hnode : node.isPrefix = false) (hkind : gate = false ∨ child.isInlined = false) :
    concat n parent node4 child byte false =
      parent.assign ((newPrefix n (bytes ++ byte :: chainBytes child) (chainRest child)).setGate gate) := by
  have hst : parent.node.isPrefix = true ∧ parent.node.gate = gate := by
    rw [hpar, newPrefix_of_ne_nil hn hbs]
    exact ⟨rfl, rfl⟩
  rw [concat, if_neg Bool.false_ne_true, concatChildIsGate, concatInternal, hst.1, hst.2, hpar]
  cases hgate : child.gate with
  | true =>
    exact congrArg parent.assign
      (appendByte_spec hn byte (fun gate _ => appendNode_spec hn (continues_of_gate hgate) gate) hnode hbs gate)
  | false =>
    cases hinl : child.isInlined with
    | true =>
      obtain rfl : gate = false := hkind.resolve_right (by rw [hinl]; exact Bool.noConfusion)
      exact congrArg parent.assign
        (appendByte_spec hn byte (fun gate _ => appendNode_spec hn (continues_of_isInlined hinl) gate) hnode hbs
          false)
    | false =>
      refine congrArg parent.assign (appendByte_spec hn byte (fun gate data hdata hle => ?_) hnode hbs gate)
      cases hch : child.isPrefix with
      | true => exact appendPrefix_spec hn child hdata hle
      | false => exact appendNode_spec hn (continues_of_not_isPrefix hch) gate hdata hle

theorem concat_of_node (hn : 0 < n) (hpar : parent.node.isPrefix = false)
    (hkind : parent.node.gate = false ∨ child.isInlined = false) :
    concat n parent node4 child byte false =
      node4.assign (newPrefix n (byte :: chainBytes child) (chainRest child)) := by
  have hne : byte :: chainBytes child ≠ [] := cons_ne_nil _ _
  have hnew : child.continues = false → Node.prefixNode false [byte] child =
      newPrefix n (byte :: chainBytes child) (chainRest child) := fun hcont =>
    (appendNode_spec hn hcont false (cons_ne_nil byte []) hn).trans (setGate_newPrefix hn hne)
  rw [concat, if_neg Bool.false_ne_true, concatChildIsGate, concatInternal, hpar]
  cases hgate : child.gate with
  | true => exact congrArg node4.assign (hnew (continues_of_gate hgate))
  | false =>
    cases hinl : child.isInlined with
    | true =>
      have hnot : parent.node.gate = false := hkind.resolve_right (by rw [hinl]; exact Bool.noConfusion)
      rw [hnot]
      exact congrArg node4.assign (hnew (continues_of_isInlined hinl))
    | false =>
      cases hch : child.isPrefix with
      | true =>
        refine congrArg node4.assign ((appendPrefix_spec hn child (cons_ne_nil byte []) hn).trans ?_)
        exact setGate_newPrefix hn hne
      | false => exact congrArg node4.assign (hnew (continues_of_not_isPrefix hch))

theorem concatNode4WasGate_spec (hn : 0 < n) (hinl : child.isInlined = false) : concatNode4WasGate n child byte =
      (newPrefix n (byte :: chainBytes child) (chainRest child)).setGate true := by
  rw [concatNode4WasGate, hinl, if_neg Bool.false_ne_true]
  cases hch : child.isPrefix with
  | true =>
    rw [if_pos rfl, appendPrefix_spec hn child (cons_ne_nil byte []) hn, setGate_setGate]
    rfl
  | false => exact appendNode_spec hn (continues_of_not_isPrefix hch) true (cons_ne_nil byte []) hn

/-- Deep enough in a gate, the last row id is inlined. -/
theorem concat_inlined (hgate : parent.node.gate = true) (hinl : child.isInlined = true) :
    concat n parent node4 child byte false =
      if parent.node.isPrefix then parent.assign child else node4.assign child := by
  have hch : child.gate = false := by
    cases child with
    | inlined rowId => rfl
    | _ => exact absurd hinl Bool.noConfusion
  rw [concat, if_neg Bool.false_ne_true, hch, if_neg Bool.false_ne_true, concatInternal, hinl, if_pos rfl, hgate,
    if_pos rfl]

end

/-! ## Losing a child -/

theorem deleteChild_inner (n : ℕ) {node : Ref} (parent : Ref) {gate : Bool} (rowId : RowId)
    (hnode : node.node = .inner gate type keys children)
    (hfits : Fits (Sizes.thresholds.node type) type.capacity keys) (hby : byte ∈ keys) :
    (∃ remaining, type = .node4 ∧ keys.erase byte = [remaining] ∧
      deleteChild n node parent byte rowId = some (concat n parent node (children remaining) remaining gate)) ∨
    ∃ type' : NodeType, Fits (Sizes.thresholds.node type') type'.capacity (keys.erase byte) ∧
      deleteChild n node parent byte rowId = some (node.assign (.inner gate type' (keys.erase byte) children)) := by
  by_cases hlft : type = .node4 ∧ (keys.erase byte).length = 1
  · obtain ⟨rfl, hlen⟩ := hlft
    obtain ⟨remaining, hrem⟩ := length_eq_one_iff.1 hlen
    refine .inl ⟨remaining, rfl, hrem, ?_⟩
    rw [deleteChild, hnode]
    dsimp only
    rw [if_pos hby, hrem]
  · rw [not_and] at hlft
    refine .inr ⟨type.shrunk (keys.erase byte).length, fits_erase hfits hby hlft, ?_⟩
    rw [deleteChild, hnode]
    cases type with
    | node4 =>
      dsimp only
      rw [if_pos hby]
      split
      · next remaining hrem => exact absurd (hrem ▸ rfl) (hlft rfl)
      · rfl
    | _ =>
      dsimp only
      rw [if_pos hby]

theorem deleteChild_leafNode (n : ℕ) {node : Ref} (parent : Ref) {gate : Bool} {type : LeafType} (rowId : RowId)
    (hnode : node.node = .leafNode gate type bytes)
    (hfits : Fits (Sizes.thresholds.leaf type) type.capacity bytes) (hby : byte ∈ bytes) :
    (∃ remaining, bytes.erase byte = [remaining] ∧ deleteChild n node parent byte rowId =
        some ((if parent.node.isPrefix then parent else node).assign (.inlined (withLastByte rowId remaining)))) ∨
    ∃ type' : LeafType, Fits (Sizes.thresholds.leaf type') type'.capacity (bytes.erase byte) ∧
      deleteChild n node parent byte rowId = some (node.assign (.leafNode gate type' (bytes.erase byte))) := by
  by_cases hlft : type = .node7Leaf ∧ (bytes.erase byte).length = 1
  · obtain ⟨rfl, hlen⟩ := hlft
    obtain ⟨remaining, hrem⟩ := length_eq_one_iff.1 hlen
    refine .inl ⟨remaining, hrem, ?_⟩
    rw [deleteChild, hnode]
    dsimp only
    rw [hrem]
    split_ifs <;> rfl
  · rw [not_and] at hlft
    refine .inr ⟨type.shrunk (bytes.erase byte).length, fits_erase_leaf hfits hby hlft, ?_⟩
    rw [deleteChild, hnode]
    cases type with
    | node7Leaf =>
      dsimp only
      split
      · next remaining hrem => exact absurd (hrem ▸ rfl) (hlft rfl)
      · rfl
    | _ => rfl

/-! ## Paths outside of gates -/

/-- A path to a node outside of gates: what replaces the node replaces the tree. `behind` tells whether the last step
    is from a prefix. -/
structure Opens (layout : Layout) (tree : Node) (path : List Frame) (node : Node) (start : List UInt8)
    (behind : Bool) : Prop where
  outside : Outside layout .thresholds node
  lift : ∀ {new : Node} {suffix : List UInt8} {rowId : RowId} {present : Prop},
    Replaces layout node new suffix rowId present →
    (behind = true → new.continues = true → node.continues = true) →
    Replaces layout tree (fill path new) (start ++ suffix) rowId present

namespace Opens

variable {tree : Node}

theorem root (h : Outside layout .thresholds tree) : Opens layout tree [] tree [] false := ⟨h, fun hnew _ => hnew⟩

theorem prefixNode {data : List UInt8} (h : Opens layout tree path (.prefixNode false data child) start behind) :
    Opens layout tree (.prefixNode false data :: path) child (start ++ data) true := by
  refine ⟨h.outside.2.2.2, fun hnew hcont => ?_⟩
  rw [append_assoc]
  exact h.lift (.prefixNode h.outside hnew (hcont rfl)) fun _ _ => rfl

theorem inner (h : Opens layout tree path (.inner false type keys children) start behind) (hby : byte ∈ keys) :
    Opens layout tree (.inner false type keys children byte :: path) (children byte) (start ++ [byte]) false := by
  refine ⟨h.outside.2 byte hby, fun hnew _ => ?_⟩
  rw [append_assoc]
  exact h.lift (.inner h.outside hby hnew) fun _ hcont => absurd hcont Bool.noConfusion

end Opens

/-! ## Paths inside a gate -/

/-- A path to a node inside the gate of a key: what replaces it without the row id, or is a last other row id,
    replaces the tree. -/
structure OpensIn (layout : Layout) (tree : Node) (key : List UInt8) (rowId : RowId) (path : List Frame) (node : Node)
    (root : Bool) (rowPath : List UInt8) (behind : Bool) : Prop where
  inGate : InGate layout .thresholds node root rowPath
  prefix_rowIdKey : rowPath <+: rowIdKey rowId
  kind : behind = true → node.isPrefix = false ∧ node.isInlined = false
  lift : ∀ {new : Node}, ReplacesIn layout node new root rowPath rowId False →
    (behind = true → new.isPrefix = false ∧ new.isInlined = false) →
    Replaces layout tree (fill path new) key rowId False
  inline : behind = false → ∀ {other : RowId}, other ≠ rowId → rowPath <+: rowIdKey other →
    (∀ x, x ≠ rowId → (x ∈ gateRows node rowPath ↔ x = other)) →
    Replaces layout tree (fill path (.inlined other)) key rowId False

namespace OpensIn

variable {tree : Node} {key : List UInt8} {root : Bool}
  {rowPath : List UInt8}

theorem of_gate {node : Node} (h : Opens layout tree path node key behind) (hgate : GateShape layout .thresholds node) :
    OpensIn layout tree key rowId path node true [] false := by
  have hnode := hgate.1.gate_eq
  refine ⟨hgate.1, nil_prefix, nofun, fun {new} hnew _ => ?_, fun _ {other} hne _ hrs => ?_⟩
  · have hcont : new.continues = false := continues_of_gate hnew.inGate.gate_eq
    have hlift := h.lift (.of_inGate hnode hnew) fun _ h => absurd h (by rw [hcont]; exact Bool.false_ne_true)
    rwa [append_nil] at hlift
  · have hnew : Replaces layout node (.inlined other) [] rowId False := by
      refine ⟨trivial, fun s x hs => ?_, iff_of_false (fun hrow => hne (holds_inlined.1 hrow).2.symm) not_false⟩
      rw [holds_inlined, holds_leaf (.inr hnode)]
      exact and_congr_right fun hnil => (hrs x fun hx => hs ⟨hnil, hx⟩).symm
    have hlift := h.lift hnew fun _ h => absurd h Bool.noConfusion
    rwa [append_nil] at hlift

theorem prefixNode {data : List UInt8}
    (h : OpensIn layout tree key rowId path (.prefixNode root data child) root rowPath behind)
    (hdata : rowPath ++ data <+: rowIdKey rowId) :
    OpensIn layout tree key rowId (.prefixNode root data :: path) child false (rowPath ++ data) true := by
  have hbhd : behind = false := by
    refine Bool.eq_false_of_not_eq_true fun hbhd => ?_
    exact absurd (h.kind hbhd).1 Bool.noConfusion
  refine ⟨h.inGate.2.2.2.2.2, hdata, fun _ => ⟨h.inGate.isPrefix_child, h.inGate.2.2.2.2.1⟩, fun hnew hkind => ?_, nofun⟩
  refine h.lift (.prefixNode h.inGate hnew (hkind rfl).1 (hkind rfl).2) fun h => ?_
  rw [hbhd] at h
  exact absurd h Bool.noConfusion

theorem inner (h : OpensIn layout tree key rowId path (.inner root type keys children) root rowPath behind)
    (hby : byte ∈ keys) (hpath : rowPath ++ [byte] <+: rowIdKey rowId) :
    OpensIn layout tree key rowId (.inner root type keys children byte :: path) (children byte) false
      (rowPath ++ [byte]) false := by
  have hlift : ∀ {new : Node}, ReplacesIn layout (children byte) new false (rowPath ++ [byte]) rowId False →
      Replaces layout tree (fill (.inner root type keys children byte :: path) new) key rowId False :=
    fun hnew => h.lift (.inner h.inGate hby hpath hnew) fun _ => ⟨rfl, rfl⟩
  refine ⟨h.inGate.2.2.2 byte hby, hpath, nofun, fun hnew _ => hlift hnew, fun _ {other} hne hoth hrs => ?_⟩
  refine hlift ⟨⟨rfl, hoth⟩, fun x hx => ?_, iff_of_false ?_ not_false⟩
  · rw [hrs x hx, gateRows, mem_singleton]
  · rw [gateRows, mem_singleton]
    exact hne.symm

end OpensIn

/-! ## Removing a child outside of gates -/

/-- One of two children is left. -/
theorem eq_or_eq_of_erase {byte remaining b : UInt8} (hlft : keys.erase byte = [remaining])
    (hb : b ∈ keys) : b = byte ∨ b = remaining := by
  by_cases heq : b = byte
  · exact .inl heq
  · have hmem := (mem_erase_of_ne heq).2 hb
    rw [hlft] at hmem
    exact .inr (mem_singleton.1 hmem)

theorem mem_ne_of_erase {byte remaining : UInt8} (hnd : keys.Nodup)
    (hlft : keys.erase byte = [remaining]) : remaining ∈ keys ∧ remaining ≠ byte := by
  have hmem : remaining ∈ keys.erase byte := by
    rw [hlft]
    exact mem_singleton_self _
  exact ⟨mem_of_mem_erase hmem, (hnd.mem_erase_iff.1 hmem).1⟩

namespace Replaces

variable {type' : NodeType}
  {rowId : RowId}

theorem eraseChild (h : Outside layout .thresholds (.inner false type keys children))
    (hfits : Fits (Sizes.thresholds.node type') type'.capacity (keys.erase byte))
    (hch : ∀ s x, Holds (children byte) s x ↔ s = suffix ∧ x = rowId) :
    Replaces layout (.inner false type keys children) (.inner false type' (keys.erase byte) children)
      (byte :: suffix) rowId False := by
  have hnd := h.1.nodup
  refine ⟨⟨hfits, fun b hb => h.2 b (mem_of_mem_erase hb)⟩, fun s x hs => ?_, iff_of_false ?_ not_false⟩
  · rw [holds_inner, holds_inner]
    constructor
    · rintro ⟨b, hb, hrst⟩
      exact ⟨b, mem_of_mem_erase hb, hrst⟩
    · rintro ⟨b, hb, rest, rfl, hrst⟩
      refine ⟨b, hnd.mem_erase_iff.2 ⟨?_, hb⟩, rest, rfl, hrst⟩
      rintro rfl
      obtain ⟨rfl, rfl⟩ := (hch rest x).1 hrst
      exact hs ⟨rfl, rfl⟩
  · rw [holds_inner]
    rintro ⟨b, hb, rest, heq, -⟩
    exact (hnd.mem_erase_iff.1 hb).1 (cons.inj heq).1.symm

/-- A `Node4` with one child left is removed, behind some bytes. -/
theorem compress {old : Node} (bytes : List UInt8) {remaining : UInt8}
    (h : Outside layout .thresholds (.inner false type keys children))
    (hold : ∀ s x, Holds old s x ↔ ∃ rest, s = bytes ++ rest ∧ Holds (.inner false type keys children) rest x)
    (hlft : keys.erase byte = [remaining])
    (hch : ∀ s x, Holds (children byte) s x ↔ s = suffix ∧ x = rowId) :
    Replaces layout old
      (newPrefix layout.prefixCount (bytes ++ remaining :: chainBytes (children remaining))
        (chainRest (children remaining)))
      (bytes ++ byte :: suffix) rowId False := by
  obtain ⟨hmem, hne⟩ := mem_ne_of_erase h.1.nodup hlft
  have hout := h.2 remaining hmem
  have hnew : ∀ s x, Holds (newPrefix layout.prefixCount (bytes ++ remaining :: chainBytes (children remaining))
      (chainRest (children remaining))) s x ↔ ∃ rest, s = bytes ++ remaining :: rest ∧ Holds (children remaining) rest x := by
    intro s x
    rw [append_cons, holds_newPrefix_chain hout]
    simp only [append_assoc, singleton_append]
  refine ⟨outside_newPrefix (outside_chainRest hout) (continues_chainRest _) _, fun s x hs => ?_,
    iff_of_false ?_ not_false⟩
  · rw [hnew, hold]
    constructor
    · rintro ⟨rest, rfl, hrst⟩
      exact ⟨remaining :: rest, rfl, holds_inner.2 ⟨remaining, hmem, rest, rfl, hrst⟩⟩
    · rintro ⟨_, rfl, hrst⟩
      obtain ⟨b, hb, rest, rfl, hrst'⟩ := holds_inner.1 hrst
      rcases eq_or_eq_of_erase hlft hb with rfl | rfl
      · obtain ⟨rfl, rfl⟩ := (hch rest x).1 hrst'
        exact absurd ⟨rfl, rfl⟩ hs
      · exact ⟨rest, rfl, hrst'⟩
  · rw [hnew]
    rintro ⟨rest, heq, -⟩
    exact hne (cons.inj (append_cancel_left heq)).1.symm

end Replaces

/-- The parent of a node outside of gates: a node with children, nothing, or the chain of prefixes that leads to the
    node. -/
def ParentOf (layout : Layout) (tree : Node) (parent : Ref) (node : Node) (start : List UInt8) (behind : Bool) : Prop :=
  behind = false ∧ parent.node.isPrefix = false ∧ parent.node.gate = false ∨
  ∃ s bytes, bytes ≠ [] ∧ start = s ++ bytes ∧ parent.node = newPrefix layout.prefixCount bytes node ∧
    Opens layout tree parent.path parent.node s false

theorem deleteChild_outside {tree : Node} {node parent : Ref} (hnode : node.node = .inner false type keys children)
    (hopen : Opens layout tree node.path node.node start behind)
    (hpar : ParentOf layout tree parent node.node start behind) (hby : byte ∈ keys)
    (hch : ∀ s x, Holds (children byte) s x ↔ s = suffix ∧ x = rowId) :
    ∃ tree', deleteChild layout.prefixCount node parent byte rowId = some tree' ∧
      Replaces layout tree tree' (start ++ byte :: suffix) rowId False := by
  have hn := layout.prefixCount_pos
  rw [hnode] at hopen hpar
  have hout := hopen.outside
  rcases deleteChild_inner layout.prefixCount parent rowId hnode hout.1 hby with
    ⟨remaining, rfl, hlft, hdel⟩ | ⟨type', hfits, hdel⟩
  · rcases hpar with ⟨rfl, hst, hgate⟩ | ⟨s, bytes, hbs, rfl, hpar, hopen'⟩
    · rw [concat_of_node hn hst (.inl hgate)] at hdel
      refine ⟨_, hdel, hopen.lift ?_ fun h => absurd h Bool.noConfusion⟩
      exact Replaces.compress [] hout (fun s x => by simp) hlft hch
    · have hchn : parent.node = (newPrefix layout.prefixCount bytes (.inner false .node4 keys children)).setGate false := by
        rw [hpar, setGate_newPrefix hn hbs]
      have hne : bytes ++ remaining :: chainBytes (children remaining) ≠ [] := append_ne_nil_of_left_ne_nil hbs _
      rw [concat_of_chain hn hchn hbs rfl (.inl rfl), setGate_newPrefix hn hne] at hdel
      rw [append_assoc]
      refine ⟨_, hdel, hopen'.lift ?_ fun h => absurd h Bool.noConfusion⟩
      refine Replaces.compress bytes hout (fun s x => ?_) hlft hch
      rw [hpar, holds_newPrefix hn]
  · exact ⟨_, hdel, hopen.lift (.eraseChild hout hfits hch) fun _ h => absurd h Bool.noConfusion⟩

/-! ## Removing a child inside a gate -/

/-- A `Node4` with two inlined row ids, one of which is a given one. -/
def pairOf (rowId : RowId) : Node → Bool
  | .inner _ .node4 keys children =>
    keys.length = 2 && keys.all (fun byte => (children byte).isInlined) &&
      keys.any fun byte => match children byte with
        | .inlined inlined => inlined = rowId
        | _ => false
  | _ => false

/-- Whether such a node is at least two steps away from the first node behind the gate. -/
def deepPair (rowId : RowId) : Node → ℕ → Bool
  | .prefixNode _ _ child, level => deepPair rowId child (level + 1)
  | .inner gate type keys children, level =>
    (2 ≤ level && pairOf rowId (.inner gate type keys children)) ||
      keys.any fun byte => deepPair rowId (children byte) (level + 1)
  | _, _ => false

theorem deepPair_inner {gate : Bool} {level : ℕ} (h : deepPair rowId (.inner gate type keys children) level = false) :
    (2 ≤ level → pairOf rowId (.inner gate type keys children) = false) ∧
      ∀ byte ∈ keys, deepPair rowId (children byte) (level + 1) = false := by
  rw [deepPair, Bool.or_eq_false_iff, any_eq_false] at h
  refine ⟨fun hlev => ?_, fun byte hby => Bool.eq_false_of_not_eq_true (h.2 byte hby)⟩
  rw [decide_eq_true hlev, Bool.true_and] at h
  exact h.1

theorem pairOf_of_erase {root : Bool} {byte remaining : UInt8} (hby : byte ∈ keys)
    (hlft : keys.erase byte = [remaining])
    (hch : children byte = .inlined rowId) (hrem : (children remaining).isInlined = true) :
    pairOf rowId (.inner root .node4 keys children) = true := by
  have hlen := length_erase_add_one hby
  rw [hlft, length_singleton] at hlen
  have hall : keys.all (fun byte => (children byte).isInlined) = true := by
    refine all_eq_true.2 fun b hb => ?_
    rcases eq_or_eq_of_erase hlft hb with rfl | rfl
    · rw [hch]
      rfl
    · exact hrem
  have hany : (keys.any fun byte => match children byte with
      | .inlined inlined => inlined = rowId
      | _ => false) = true := by
    refine any_eq_true.2 ⟨byte, hby, ?_⟩
    rw [hch]
    exact decide_eq_true rfl
  rw [pairOf, hall, hany, ← hlen]
  rfl

namespace ReplacesIn

variable {root root' : Bool} {path : List UInt8} {type' : NodeType}
  {byte remaining : UInt8} {rowId : RowId}

theorem eraseChild (h : InGate layout .thresholds (.inner root type keys children) root path)
    (hfits : Fits (Sizes.thresholds.node type') type'.capacity (keys.erase byte))
    (hpath : path ++ [byte] <+: rowIdKey rowId) (hch : children byte = .inlined rowId) :
    ReplacesIn layout (.inner root type keys children) (.inner root type' (keys.erase byte) children) root path rowId
      False := by
  have hnd := h.2.2.1.nodup
  refine ⟨⟨rfl, h.2.1, hfits, fun b hb => h.2.2.2 b (mem_of_mem_erase hb)⟩, fun x hx => ?_,
    iff_of_false ?_ not_false⟩
  · rw [gateRows, gateRows, mem_flatMap, mem_flatMap]
    constructor
    · rintro ⟨b, hb, hmem⟩
      exact ⟨b, mem_of_mem_erase hb, hmem⟩
    · rintro ⟨b, hb, hmem⟩
      refine ⟨b, hnd.mem_erase_iff.2 ⟨?_, hb⟩, hmem⟩
      rintro rfl
      rw [hch, gateRows, mem_singleton] at hmem
      exact hx hmem
  · intro hmem
    obtain ⟨b, hb, hmem⟩ := mem_flatMap.1 hmem
    obtain ⟨hne, hb⟩ := hnd.mem_erase_iff.1 hb
    exact hne (eq_of_concat ((h.2.2.2 b hb).prefix_of_mem hmem) hpath)

theorem eraseByte {type type' : LeafType} (h : InGate layout .thresholds (.leafNode false type bytes) false path)
    (hfits : Fits (Sizes.thresholds.leaf type') type'.capacity (bytes.erase byte))
    (hpath : path ++ [byte] = rowIdKey rowId) :
    ReplacesIn layout (.leafNode false type bytes) (.leafNode false type' (bytes.erase byte)) false path rowId False := by
  have hnd := h.2.2.2.nodup
  have hkey : ∀ b, rowIdKey (getRowId (path ++ [b])) = path ++ [b] := fun b => by
    rw [rowIdKey_getRowId]
    rw [length_append, h.2.2.1, length_singleton]
  refine ⟨⟨rfl, rfl, h.2.2.1, hfits⟩, fun x hx => ?_, iff_of_false ?_ not_false⟩
  · rw [gateRows, gateRows, mem_map, mem_map]
    constructor
    · rintro ⟨b, hb, hrow⟩
      exact ⟨b, mem_of_mem_erase hb, hrow⟩
    · rintro ⟨b, hb, rfl⟩
      refine ⟨b, hnd.mem_erase_iff.2 ⟨?_, hb⟩, rfl⟩
      rintro rfl
      exact hx (by rw [hpath, getRowId_rowIdKey])
  · intro hmem
    obtain ⟨b, hb, rfl⟩ := mem_map.1 hmem
    rw [hkey] at hpath
    exact (hnd.mem_erase_iff.1 hb).1 (cons.inj (append_cancel_left hpath)).1.symm

theorem mem_gateRows_of_erase (h : InGate layout .thresholds (.inner root type keys children) root path)
    (hby : byte ∈ keys) (hlft : keys.erase byte = [remaining]) (hpath : path ++ [byte] <+: rowIdKey rowId)
    (hch : children byte = .inlined rowId) :
    (∀ x, x ≠ rowId → (x ∈ gateRows (.inner root type keys children) path ↔
      x ∈ gateRows (children remaining) (path ++ [remaining]))) ∧
    rowId ∉ gateRows (children remaining) (path ++ [remaining]) := by
  obtain ⟨hmem, hne⟩ := mem_ne_of_erase h.2.2.1.nodup hlft
  refine ⟨fun x hx => ?_, fun hrow => ?_⟩
  · rw [gateRows, mem_flatMap]
    constructor
    · rintro ⟨b, hb, hrow⟩
      rcases eq_or_eq_of_erase hlft hb with rfl | rfl
      · rw [hch, gateRows, mem_singleton] at hrow
        exact absurd hrow hx
      · exact hrow
    · intro hrow
      exact ⟨remaining, hmem, hrow⟩
  · exact hne (eq_of_concat ((h.2.2.2 remaining hmem).prefix_of_mem hrow) hpath)

/-- A `Node4` with one child left is removed, behind some bytes. -/
theorem compress {old : Node} (bytes : List UInt8)
    (h : InGate layout .thresholds (.inner root' type keys children) root' (path ++ bytes))
    (hold : gateRows old path = gateRows (.inner root' type keys children) (path ++ bytes)) (hby : byte ∈ keys)
    (hlft : keys.erase byte = [remaining]) (hpath : path ++ bytes ++ [byte] <+: rowIdKey rowId)
    (hch : children byte = .inlined rowId) (hinl : (children remaining).isInlined = false) (root : Bool) :
    ReplacesIn layout old
      ((newPrefix layout.prefixCount (bytes ++ remaining :: chainBytes (children remaining))
        (chainRest (children remaining))).setGate root) root path rowId False := by
  have hn := layout.prefixCount_pos
  obtain ⟨hmem, -⟩ := mem_ne_of_erase h.2.2.1.nodup hlft
  obtain ⟨hrs, hrow⟩ := mem_gateRows_of_erase h hby hlft hpath hch
  have hgate := h.2.2.2 remaining hmem
  obtain ⟨hchn, hrst, hst, hkind⟩ := hgate.chain
  have hassoc : path ++ bytes ++ [remaining] ++ chainBytes (children remaining) =
      path ++ (bytes ++ remaining :: chainBytes (children remaining)) := by simp
  have hnew : gateRows ((newPrefix layout.prefixCount (bytes ++ remaining :: chainBytes (children remaining))
      (chainRest (children remaining))).setGate root) path =
      gateRows (children remaining) (path ++ bytes ++ [remaining]) := by
    rw [gateRows_setGate, gateRows_newPrefix hn, ← hassoc, ← gateRows_newPrefix hn, hchn]
  rw [hassoc] at hrst
  refine ⟨hrst.newPrefix ?_ hst (hkind.trans hinl) root, fun x hx => ?_, ?_⟩
  · exact append_ne_nil_of_right_ne_nil _ (cons_ne_nil _ _)
  · rw [hnew, hold, hrs x hx]
  · rw [hnew]
    exact iff_of_false hrow not_false

end ReplacesIn

/-- What a deletion knows about the parent of a node inside a gate. -/
def ParentIn (layout : Layout) (tree : Node) (key : List UInt8) (rowId : RowId) (parent : Ref) (node : Node)
    (rowPath : List UInt8) (behind : Bool) : Prop :=
  behind = false ∧ parent.node.isPrefix = false ∨
  ∃ gate data path, parent.node = .prefixNode gate data node ∧ rowPath = path ++ data ∧
    OpensIn layout tree key rowId parent.path parent.node gate path false

section

variable {tree : Node} {key : List UInt8} {rowId : RowId} {node parent : Ref} {root : Bool}
  {rowPath : List UInt8}

theorem deleteChild_inGate (hnode : node.node = .inner root type keys children)
    (hopen : OpensIn layout tree key rowId node.path node.node root rowPath behind)
    (hpar : root = false → ParentIn layout tree key rowId parent node.node rowPath behind ∧
      (parent.node.gate = false → pairOf rowId node.node = false))
    (hroot : root = true → behind = false) (hby : byte ∈ keys) (hpath : rowPath ++ [byte] <+: rowIdKey rowId)
    (hch : children byte = .inlined rowId) :
    ∃ tree', deleteChild layout.prefixCount node parent byte rowId = some tree' ∧
      Replaces layout tree tree' key rowId False := by
  have hn := layout.prefixCount_pos
  rw [hnode] at hopen hpar
  have hgate := hopen.inGate
  rcases deleteChild_inner layout.prefixCount parent rowId hnode hgate.2.2.1 hby with
    ⟨remaining, rfl, hlft, hdel⟩ | ⟨type', hfits, hdel⟩
  · obtain ⟨hmem, -⟩ := mem_ne_of_erase hgate.2.2.1.nodup hlft
    obtain ⟨hrs, hrow⟩ := ReplacesIn.mem_gateRows_of_erase hgate hby hlft hpath hch
    have hrem := hgate.2.2.2 remaining hmem
    cases hinl : (children remaining).isInlined with
    | true =>
      obtain ⟨other, hoth⟩ : ∃ other, children remaining = .inlined other := by
        cases hnode : children remaining with
        | inlined other => exact ⟨other, rfl⟩
        | _ => exact absurd (hnode ▸ hinl) Bool.noConfusion
      rw [hoth, gateRows, mem_singleton] at hrow
      simp only [hoth, gateRows, mem_singleton] at hrs
      rw [hoth] at hrem hdel
      have hotherPath : rowPath <+: rowIdKey other := (prefix_append _ _).trans hrem.2
      cases root with
      | true => exact ⟨_, hdel, hopen.inline (hroot rfl) (Ne.symm hrow) hotherPath hrs⟩
      | false =>
        obtain ⟨hpar, hpair⟩ := hpar rfl
        -- Only the first node of the gate tells that this is inside of it.
        have hgateBit : parent.node.gate = true := by
          refine Bool.eq_true_of_not_eq_false fun hbit => ?_
          have hnot := hpair hbit
          rw [pairOf_of_erase hby hlft hch hinl] at hnot
          exact absurd hnot Bool.noConfusion
        rw [concat_inlined hgateBit rfl] at hdel
        rcases hpar with ⟨hbhd, hst⟩ | ⟨gate, data, path, hst, rfl, hopen'⟩
        · rw [hst, if_neg Bool.false_ne_true] at hdel
          exact ⟨_, hdel, hopen.inline hbhd (Ne.symm hrow) hotherPath hrs⟩
        · have hinline := hopen'.inline rfl (Ne.symm hrow) ((prefix_append _ _).trans hotherPath)
          rw [hst] at hdel hinline
          exact ⟨_, hdel, hinline hrs⟩
    | false =>
      have hne : remaining :: chainBytes (children remaining) ≠ [] := cons_ne_nil _ _
      have hnil : rowPath ++ [] = rowPath := append_nil rowPath
      cases root with
      | true =>
        rw [concat, if_pos rfl, concatNode4WasGate_spec hn hinl] at hdel
        refine ⟨_, hdel, hopen.lift (ReplacesIn.compress [] (hnil.symm ▸ hgate) (by rw [hnil]) hby hlft
          (hnil.symm ▸ hpath) hch hinl true) fun h => ?_⟩
        rw [hroot rfl] at h
        exact absurd h Bool.noConfusion
      | false =>
        obtain ⟨hbhd, hst⟩ | ⟨gate, data, path, hst, rfl, hopen'⟩ := (hpar rfl).1
        · rw [concat_of_node hn hst (.inr hinl), ← setGate_newPrefix hn hne] at hdel
          refine ⟨_, hdel, hopen.lift (ReplacesIn.compress [] (hnil.symm ▸ hgate) (by rw [hnil]) hby hlft
            (hnil.symm ▸ hpath) hch hinl false) fun h => ?_⟩
          rw [hbhd] at h
          exact absurd h Bool.noConfusion
        · have hparentGate := hopen'.inGate
          rw [hst] at hparentGate
          have hchn : parent.node = (newPrefix layout.prefixCount data (.inner false .node4 keys children)).setGate gate := by
            rw [hst, newPrefix_of_length_le hn hparentGate.2.1 hparentGate.2.2.1]
            rfl
          rw [concat_of_chain hn hchn hparentGate.2.1 rfl (.inr hinl)] at hdel
          refine ⟨_, hdel, hopen'.lift (ReplacesIn.compress data hgate (by rw [hst]; rfl) hby hlft hpath hch
            hinl gate) fun h => absurd h Bool.noConfusion⟩
  · exact ⟨_, hdel, hopen.lift (.eraseChild hgate hfits hpath hch) fun _ => ⟨rfl, rfl⟩⟩

theorem deleteByte_inGate {type : LeafType} (hnode : node.node = .leafNode false type bytes)
    (hopen : OpensIn layout tree key rowId node.path node.node false rowPath behind)
    (hpar : ParentIn layout tree key rowId parent node.node rowPath behind) (hby : byte ∈ bytes)
    (hpath : rowPath ++ [byte] = rowIdKey rowId) :
    ∃ tree', deleteChild layout.prefixCount node parent byte rowId = some tree' ∧
      Replaces layout tree tree' key rowId False := by
  rw [hnode] at hopen hpar
  have hgate := hopen.inGate
  rcases deleteChild_leafNode layout.prefixCount parent rowId hnode hgate.2.2.2 hby with
    ⟨remaining, hlft, hdel⟩ | ⟨type', hfits, hdel⟩
  · obtain ⟨hmem, hne⟩ := mem_ne_of_erase hgate.2.2.2.nodup hlft
    have hkey := rowIdKey_withLastByte hpath remaining
    have hotherPath : rowPath <+: rowIdKey (withLastByte rowId remaining) := hkey ▸ prefix_append _ _
    have hoth : withLastByte rowId remaining ≠ rowId := by
      intro heq
      rw [heq, ← hpath] at hkey
      exact hne (cons.inj (append_cancel_left hkey)).1.symm
    have hrs : ∀ x, x ≠ rowId → (x ∈ gateRows (.leafNode false type bytes) rowPath ↔
        x = withLastByte rowId remaining) := by
      intro x hx
      rw [gateRows, mem_map]
      constructor
      · rintro ⟨b, hb, rfl⟩
        rcases eq_or_eq_of_erase hlft hb with rfl | rfl
        · exact absurd (by rw [hpath, getRowId_rowIdKey]) hx
        · rw [← hkey, getRowId_rowIdKey]
      · rintro rfl
        exact ⟨remaining, hmem, by rw [← hkey, getRowId_rowIdKey]⟩
    rcases hpar with ⟨hbhd, hst⟩ | ⟨gate, data, path, hst, rfl, hopen'⟩
    · rw [hst, if_neg Bool.false_ne_true] at hdel
      exact ⟨_, hdel, hopen.inline hbhd hoth hotherPath hrs⟩
    · have hinline := hopen'.inline rfl hoth ((prefix_append _ _).trans hotherPath)
      have hisPrefix : parent.node.isPrefix = true := by rw [hst]; rfl
      rw [hisPrefix, if_pos rfl] at hdel
      rw [hst] at hinline
      exact ⟨_, hdel, hinline hrs⟩
  · exact ⟨_, hdel, hopen.lift (.eraseByte hgate hfits hpath) fun _ => ⟨rfl, rfl⟩⟩

/-! ## The loop inside a gate -/

variable (layout tree key rowId) in
/-- What a deletion knows about a child of a node inside a gate, at a depth. -/
def BelowIn (node parent : Ref) (depth : ℕ) (child : Node) (rowPath : List UInt8) : Prop :=
  ∃ root type keys children byte path behind, node.node = .inner root type keys children ∧ byte ∈ keys ∧
    children byte = child ∧ rowPath = path ++ [byte] ∧ depth = path.length ∧
    OpensIn layout tree key rowId node.path node.node root path behind ∧ (root = true → behind = false) ∧
    (root = false → ParentIn layout tree key rowId parent node.node path behind ∧
      (parent.node.gate = false → pairOf rowId node.node = false))

variable (layout tree key rowId) in
/-- What the loop knows about the nodes above the current one, below the first node of the gate. -/
structure AboveIn (a : Ancestors) (node : Node) (rowPath : List UInt8) (behind : Bool) (level : ℕ) : Prop where
  parent : ParentIn layout tree key rowId a.parent node rowPath behind
  below : behind = false → BelowIn layout tree key rowId a.parent a.grandparent a.parentDepth node rowPath
  one_le : 1 ≤ level
  two_le : a.parent.node.gate = false → 2 ≤ level

/-- Nothing is deleted. -/
theorem OpensIn.unchanged {node : Node}
    (h : OpensIn layout tree key rowId path node root rowPath behind) (hrow : rowId ∉ gateRows node rowPath) :
    Replaces layout tree (fill path node) key rowId False :=
  h.lift (.refl h.inGate (iff_of_false hrow not_false)) h.kind

theorem deleteLoop_inGate {node : Node} {a : Ancestors} {d : Descent} {passedNode : Bool}
    {level : ℕ} (hopen : OpensIn layout tree key rowId path node root rowPath behind)
    (hd : d.enter root rowId = ⟨rowIdKey rowId, rowPath.length, true⟩) (hroot : root = true → behind = false)
    (habv : root = false → AboveIn layout tree key rowId a node rowPath behind level)
    (hdeep : deepPair rowId node level = false) :
    ∃ tree', deleteLoop layout.prefixCount rowId node path a d passedNode false = some tree' ∧
      Replaces layout tree tree' key rowId False := by
  have hgate := hopen.inGate
  induction node generalizing path a d passedNode level root rowPath behind with
  | empty => exact absurd hgate not_false
  | inlined inlined =>
    obtain rfl : root = false := hgate.1
    have hbhd : behind = false := Bool.eq_false_of_not_eq_true fun h => absurd (hopen.kind h).2 Bool.noConfusion
    rw [Descent.enter_false] at hd
    by_cases hrow : inlined = rowId
    · obtain ⟨root, type, keys, children, byte, nodePath, behind, hnode, hby, hch, rfl, hdep, hopenNode, hrootNode,
        hpar⟩ := (habv rfl).below hbhd
      have hkeyByte : (rowIdKey rowId)[nodePath.length]? = some byte := by
        obtain ⟨rest, hrst⟩ := hopen.prefix_rowIdKey
        rw [← hrst, append_assoc, getElem?_append_right le_rfl, Nat.sub_self]
        rfl
      have hst : a.parent.node.isPrefix = false := by rw [hnode]; rfl
      obtain ⟨tree', hdel, hrepl⟩ := deleteChild_inGate hnode hopenNode hpar hrootNode hby
        hopen.prefix_rowIdKey (hch.trans (congrArg Node.inlined hrow))
      refine ⟨tree', ?_, hrepl⟩
      rw [deleteLoop, if_neg (not_not.2 hrow), hst, Bool.and_false, if_neg Bool.false_ne_true,
        if_neg Bool.false_ne_true, hd, hdep]
      rw [hkeyByte]
      exact hdel
    · refine ⟨_, ?_, hopen.unchanged ?_⟩
      · rw [deleteLoop, if_pos hrow]
      · rw [gateRows, mem_singleton]
        exact Ne.symm hrow
  | leafNode gate type bytes =>
    obtain rfl : gate = false := hgate.1
    obtain rfl : root = false := hgate.2.1
    obtain ⟨byte, hby, hcat⟩ := exists_rowIdKey_concat hopen.prefix_rowIdKey hgate.2.2.1.le
    have hkey : rowPath ++ [byte] = rowIdKey rowId :=
      hcat.eq_of_length (by rw [length_append, hgate.2.2.1, length_rowIdKey]; rfl)
    rw [deleteLoop, hd]
    rw [hby]
    dsimp only
    by_cases hmem : byte ∈ bytes
    · rw [if_pos hmem]
      have hnode : (⟨.leafNode false type bytes, path⟩ : Ref).node = .leafNode false type bytes := rfl
      exact deleteByte_inGate hnode hopen (habv rfl).parent hmem hkey
    · rw [if_neg hmem]
      refine ⟨_, rfl, hopen.unchanged fun hrow => ?_⟩
      obtain ⟨b, hb, hget⟩ := mem_map.1 hrow
      have hb' : rowPath ++ [b] = rowPath ++ [byte] := by
        rw [hkey, ← hget, rowIdKey_getRowId]
        rw [length_append, hgate.2.2.1, length_singleton]
      exact hmem ((cons.inj (append_cancel_left hb')).1 ▸ hb)
  | inner gate type keys children ih =>
    obtain rfl : gate = root := hgate.1
    obtain ⟨byte, hby, hcat⟩ := exists_rowIdKey_concat hopen.prefix_rowIdKey hgate.2.1.le
    obtain ⟨hpair, hdeep⟩ := deepPair_inner hdeep
    rw [deleteLoop, hd]
    rw [hby]
    dsimp only
    by_cases hmem : byte ∈ keys
    · have hch := hgate.2.2.2 byte hmem
      rw [if_pos hmem, hch.isEmpty_eq, if_neg Bool.false_ne_true]
      refine ih byte (hopen.inner hmem hcat) ?_ (fun h => absurd h Bool.noConfusion) (fun _ => ?_)
        (hdeep byte hmem) hch
      · rw [Descent.enter_false, length_append]
        rfl
      · refine ⟨.inl ⟨rfl, rfl⟩, fun _ => ⟨gate, type, keys, children, byte, rowPath, behind, rfl, hmem, rfl, rfl, rfl, hopen,
          hroot, fun hgate => ⟨(habv hgate).parent, fun hbit => hpair ((habv hgate).two_le hbit)⟩⟩,
          Nat.succ_le_succ (Nat.zero_le _), fun hbit => Nat.succ_le_succ (habv hbit).one_le⟩
    · rw [if_neg hmem]
      refine ⟨_, rfl, hopen.unchanged fun hrow => ?_⟩
      obtain ⟨b, hb, hrow⟩ := mem_flatMap.1 hrow
      exact hmem (eq_of_concat ((hgate.2.2.2 b hb).prefix_of_mem hrow) hcat ▸ hb)
  | prefixNode gate data child ih =>
    obtain rfl : gate = root := hgate.1
    have hst := hgate.isPrefix_child
    have hlen := hgate.2.2.2.2.2.length_le_rowIdCount hgate.2.2.2.2.1
    have hbhd : behind = false := Bool.eq_false_of_not_eq_true fun h => absurd (hopen.kind h).1 Bool.noConfusion
    obtain ⟨rest, hrst⟩ := hopen.prefix_rowIdKey
    have hdrop : (rowIdKey rowId).drop rowPath.length = rest := by rw [← hrst, drop_left]
    rw [deleteLoop, hd, if_neg Bool.false_ne_true]
    rcases comparePrefix_cases (rowIdKey rowId) data rowPath.length with ⟨rest', hrst', hcmp⟩ |
      ⟨common, byte, keyByte, bytes, rest', rfl, hrst', hne, hcmp⟩ | ⟨bytes, hbs, rfl, -⟩
    · have hdata : rowPath ++ data <+: rowIdKey rowId := by
        rw [← hrst, ← hdrop, hrst', ← append_assoc]
        exact prefix_append _ _
      rw [hcmp, hst, Bool.false_and]
      refine ih (hopen.prefixNode hdata) ?_ (fun h => absurd h Bool.noConfusion) (fun _ => ?_) hdeep hgate.2.2.2.2.2
      · rw [Descent.enter_false, length_append]
      · refine ⟨.inr ⟨gate, data, rowPath, rfl, rfl, hbhd ▸ hopen⟩, fun h => absurd h Bool.noConfusion,
          Nat.succ_le_succ (Nat.zero_le _), fun hbit => Nat.succ_le_succ (habv hbit).one_le⟩
    · rw [hcmp]
      refine ⟨_, rfl, hopen.unchanged fun hrow => ?_⟩
      have hpath := hgate.2.2.2.2.2.prefix_of_mem hrow
      have hkey : rowIdKey rowId = rowPath ++ common ++ keyByte :: rest' := by
        rw [← hrst, ← hdrop, hrst', append_assoc]
      have hby : rowPath ++ common ++ [byte] <+: rowIdKey rowId := by
        refine (isPrefix_concat _ byte bytes).trans ?_
        rwa [append_assoc]
      exact hne (eq_of_concat hby (hkey ▸ isPrefix_concat _ keyByte rest'))
    · have hkeyLength := length_rowIdKey rowId
      rw [← hrst, length_append] at hkeyLength
      rw [hdrop, length_append, length_append] at hlen
      omega

end

/-! ## The loop outside of gates -/

/-- Full nodes of a chain, and what is behind them. -/
theorem newPrefix_append_of_dvd (hn : 0 < n) (h : n ∣ bytes.length) (data : List UInt8)
    (child : Node) : newPrefix n (bytes ++ data) child = newPrefix n bytes (newPrefix n data child) := by
  induction bytes using chainInduction hn with
  | nil => rfl
  | step bytes hne ih =>
    have hle : n ≤ bytes.length := Nat.le_of_dvd (length_pos_of_ne_nil hne) h
    have hdvd : n ∣ (bytes.drop n).length := by
      rw [length_drop]
      exact Nat.dvd_sub h dvd_rfl
    rw [newPrefix_of_ne_nil hn hne, ← ih hdvd, ← newPrefix_append hn (length_take_of_le hle), ← append_assoc,
      take_append_drop]

section

variable {tree : Node} {key : List UInt8}

variable (layout tree) in
/-- What a deletion knows about a child of a node outside of gates, at a depth. -/
def Below (node parent : Ref) (depth : ℕ) (child : Node) (start : List UInt8) : Prop :=
  ∃ type keys children byte s behind, node.node = .inner false type keys children ∧ byte ∈ keys ∧
    children byte = child ∧ start = s ++ [byte] ∧ depth = s.length ∧ Opens layout tree node.path node.node s behind ∧
    ParentOf layout tree parent node.node s behind

variable (layout tree) in
/-- What is above the current node: nothing, a node with children, or a chain of prefixes with what is above it. -/
structure Above (a : Ancestors) (node : Node) (path : List Frame) (start : List UInt8) (behind passedNode : Bool) :
    Prop where
  root : behind = false → passedNode = false → path = [] ∧ start = [] ∧ node = tree ∧ a.parent = ⟨tree, []⟩
  below : behind = false → passedNode = true → Below layout tree a.parent a.grandparent a.parentDepth node start
  chain : behind = true → ∃ s bytes, bytes ≠ [] ∧ start = s ++ bytes ∧
    a.parent.node = newPrefix layout.prefixCount bytes node ∧
    (node.continues = true → layout.prefixCount ∣ bytes.length) ∧
    Opens layout tree a.parent.path a.parent.node s false ∧
    (passedNode = false → s = [] ∧ a.parent.path = [] ∧ a.parent.node = tree) ∧
    (passedNode = true → Below layout tree a.grandparent a.greatgrandparent a.grandparentDepth a.parent.node s)

theorem Above.parentOf {a : Ancestors} {node : Node} {start : List UInt8}
    {behind passedNode : Bool} (h : Above layout tree a node path start behind passedNode)
    (hnode : node.isPrefix = false ∧ node.gate = false) : ParentOf layout tree a.parent node start behind := by
  cases behind with
  | true =>
    obtain ⟨s, bytes, hbs, hst, hpar, -, hopen, -⟩ := h.chain rfl
    exact .inr ⟨s, bytes, hbs, hst, hpar, hopen⟩
  | false =>
    cases passedNode with
    | false =>
      obtain ⟨-, -, hroot, hpar⟩ := h.root rfl rfl
      rw [hroot] at hnode
      exact .inl ⟨rfl, by rw [hpar]; exact hnode⟩
    | true =>
      obtain ⟨type, keys, children, byte, s, behind, hpar, -⟩ := h.below rfl rfl
      exact .inl ⟨rfl, by rw [hpar]; exact ⟨rfl, rfl⟩⟩

theorem deleteChild_below {node parent : Ref} {depth : ℕ} (h : Below layout tree node parent depth child start)
    (hch : ∀ s x, Holds child s x ↔ s = suffix ∧ x = rowId) :
    ∃ byte tree', (start ++ suffix)[depth]? = some byte ∧
      deleteChild layout.prefixCount node parent byte rowId = some tree' ∧
      Replaces layout tree tree' (start ++ suffix) rowId False := by
  obtain ⟨type, keys, children, byte, s, behind, hnode, hby, rfl, rfl, rfl, hopen, hpar⟩ := h
  obtain ⟨tree', hdel, hrepl⟩ := deleteChild_outside hnode hopen hpar hby hch
  rw [append_assoc]
  refine ⟨byte, tree', ?_, hdel, hrepl⟩
  rw [getElem?_append_right le_rfl, Nat.sub_self]
  rfl

theorem Opens.unchanged {node : Node}
    (h : Opens layout tree path node start behind) (hrow : ¬ Holds node suffix rowId) :
    Replaces layout tree (fill path node) (start ++ suffix) rowId False :=
  h.lift (.refl h.outside (iff_of_false hrow not_false)) fun _ => id

variable (layout tree) in
/-- What a deletion leaves: the tree without the row id, or nothing if this was the last one. -/
def Deletes (key : List UInt8) (rowId : RowId) (tree' : Node) : Prop :=
  Replaces layout tree tree' key rowId False ∨ tree' = .empty ∧ ∀ s x, Holds tree s x ↔ s = key ∧ x = rowId

theorem deleteLoop_gate {node : Node} (a : Ancestors) (passedNode : Bool)
    (hopen : Opens layout tree path node key behind) (hgate : GateShape layout .thresholds node)
    (hdeep : deepPair rowId node 0 = false) :
    ∃ tree', deleteLoop layout.prefixCount rowId node path a ⟨key, key.length, false⟩ passedNode false = some tree' ∧
      Replaces layout tree tree' key rowId False :=
  deleteLoop_inGate (.of_gate hopen hgate) rfl (fun _ => rfl) (fun h => absurd h Bool.noConfusion) hdeep

theorem deleteLoop_outside {node : Node} {a : Ancestors} {passedNode inChain : Bool}
    (hopen : Opens layout tree path node start behind)
    (hkey : key = start ++ suffix) (hne : key ≠ [])
    (habv : Above layout tree a node path start behind passedNode)
    (hinChain : inChain = (behind && node.continues)) (hfree : ∀ leaf ∈ leaves node, PrefixFree leaf.1 suffix)
    (hdeep : ∀ leaf ∈ leaves node, leaf.1 = suffix → deepPair rowId leaf.2 0 = false) :
    ∃ tree', deleteLoop layout.prefixCount rowId node path a ⟨key, start.length, false⟩ passedNode inChain =
      some tree' ∧ Deletes layout tree key rowId tree' := by
  have hn := layout.prefixCount_pos
  have hout := hopen.outside
  induction node generalizing path a passedNode inChain start suffix behind with
  | empty | leafNode gate type bytes => exact absurd hout not_false
  | inlined inlined =>
    obtain rfl : suffix = [] := suffix_eq_nil (.inl rfl) hfree
    by_cases hrow : inlined = rowId
    · subst hrow
      cases hbhd : behind with
      | true =>
        obtain ⟨s, bytes, hbs, rfl, hpar, -, -, hroot, hbelow⟩ := habv.chain hbhd
        have hst : a.parent.node.isPrefix = true := by rw [hpar, isPrefix_newPrefix hn hbs]
        rw [append_nil] at hkey
        rw [deleteLoop, if_neg (not_not.2 rfl), hst]
        cases passedNode with
        | false =>
          obtain ⟨rfl, hpath, htree⟩ := hroot rfl
          refine ⟨_, if_pos rfl, .inr ⟨?_, fun s x => ?_⟩⟩
          · rw [Ref.assign, hpath]
            rfl
          · rw [← htree, hpar, holds_newPrefix_inlined hn, hkey]
            rfl
        | true =>
          have hhld : ∀ s x, Holds a.parent.node s x ↔ s = bytes ∧ x = inlined := fun s x => by
            rw [hpar, holds_newPrefix_inlined hn]
          obtain ⟨byte, tree', hby, hdel, hrepl⟩ := deleteChild_below (hbelow rfl) hhld
          rw [← hkey] at hby hrepl
          refine ⟨tree', ?_, .inl hrepl⟩
          rw [hby]
          exact hdel
      | false =>
        cases passedNode with
        | false =>
          obtain ⟨-, rfl, -⟩ := habv.root hbhd rfl
          exact absurd hkey hne
        | true =>
          have hbelow := habv.below hbhd rfl
          have hst : a.parent.node.isPrefix = false := by
            obtain ⟨type, keys, children, byte, s, behind, hpar, -⟩ := hbelow
            rw [hpar]
            rfl
          obtain ⟨byte, tree', hby, hdel, hrepl⟩ := deleteChild_below hbelow fun _ _ => holds_inlined
          rw [← hkey] at hby hrepl
          refine ⟨tree', ?_, .inl hrepl⟩
          rw [deleteLoop, if_neg (not_not.2 rfl), hst, Bool.and_false, if_neg Bool.false_ne_true,
            if_neg Bool.false_ne_true]
          rw [hby]
          exact hdel
    · rw [hkey]
      refine ⟨_, ?_, .inl (hopen.unchanged ?_)⟩
      · rw [deleteLoop, if_pos hrow]
      · rw [holds_inlined]
        exact fun h => hrow h.2.symm
  | inner gate type keys children ih =>
    cases gate with
    | true =>
      obtain rfl : suffix = [] := suffix_eq_nil (.inr rfl) hfree
      rw [append_nil] at hkey
      subst hkey
      rw [continues_of_gate rfl, Bool.and_false] at hinChain
      obtain ⟨tree', hdel, hrepl⟩ := deleteLoop_gate a passedNode hopen hout
        (hdeep _ (mem_singleton_self _) rfl)
      exact ⟨tree', hinChain ▸ hdel, .inl hrepl⟩
    | false =>
      have hpar := habv.parentOf ⟨rfl, rfl⟩
      cases suffix with
      | nil => exact absurd rfl (suffix_ne_nil hout hfree)
      | cons byte suffix =>
        have hby : key[start.length]? = some byte := by
          rw [hkey, getElem?_append_right le_rfl, Nat.sub_self]
          rfl
        rw [deleteLoop, Descent.enter_false]
        rw [hby]
        dsimp only
        by_cases hmem : byte ∈ keys
        · rw [if_pos hmem, (hout.2 byte hmem).isEmpty_eq, if_neg Bool.false_ne_true]
          have hlen : start.length + 1 = (start ++ [byte]).length := by rw [length_append]; rfl
          rw [hlen]
          refine ih byte (hopen.inner hmem) (by rw [hkey, append_assoc]; rfl) ?_ (Bool.false_and _).symm
            (free_inner hfree hmem) (fun leaf hlf heq =>
              hdeep (byte :: leaf.1, leaf.2) (mem_leaves_inner hmem hlf) (congrArg _ heq))
            (hout.2 byte hmem)
          exact ⟨fun _ h => absurd h Bool.noConfusion,
            fun _ _ => ⟨type, keys, children, byte, start, behind, rfl, hmem, rfl, rfl, rfl, hopen, hpar⟩,
            fun h => absurd h Bool.noConfusion⟩
        · rw [if_neg hmem, hkey]
          refine ⟨_, rfl, .inl (hopen.unchanged ?_)⟩
          rw [holds_inner]
          rintro ⟨b, hb, rest, heq, -⟩
          exact hmem ((cons.inj heq).1 ▸ hb)
  | prefixNode gate data child ih =>
    cases gate with
    | true =>
      obtain rfl : suffix = [] := suffix_eq_nil (.inr rfl) hfree
      rw [append_nil] at hkey
      subst hkey
      rw [continues_of_gate rfl, Bool.and_false] at hinChain
      obtain ⟨tree', hdel, hrepl⟩ := deleteLoop_gate a passedNode hopen hout
        (hdeep _ (mem_singleton_self _) rfl)
      exact ⟨tree', hinChain ▸ hdel, .inl hrepl⟩
    | false =>
      obtain ⟨hdata, hle, hfull, hch⟩ := id hout
      have hdrop : key.drop start.length = suffix := by rw [hkey, drop_left]
      rw [deleteLoop, Descent.enter_false]
      rcases comparePrefix_cases key data start.length with ⟨rest, hrst, hcmp⟩ |
        ⟨common, byte, keyByte, bytes, rest, rfl, hrst, hby, hcmp⟩ | ⟨bytes, hbs, rfl, -⟩
      · obtain rfl : suffix = data ++ rest := hdrop.symm.trans hrst
        have hlen : start.length + data.length = (start ++ data).length := length_append.symm
        rw [hcmp]
        rw [hlen]
        refine ih hopen.prefixNode (by rw [hkey, append_assoc]) ?_ (Bool.true_and _).symm (free_prefixNode hfree)
          (fun leaf hlf heq => hdeep (data ++ leaf.1, leaf.2) (mem_leaves_prefixNode hlf) (congrArg _ heq)) hch
        refine ⟨fun h => absurd h Bool.noConfusion, fun h => absurd h Bool.noConfusion, fun _ => ?_⟩
        have hchn : child.continues = true → data.length = layout.prefixCount := fun hcont => by
          rw [Node.continues, Bool.and_eq_true, Bool.not_eq_true'] at hcont
          exact hfull hcont.1 hcont.2
        have hnode : newPrefix layout.prefixCount data child = .prefixNode false data child :=
          newPrefix_of_length_le hn hdata hle
        cases hbhd : behind with
        | true =>
          -- Another node of the chain of the parent.
          obtain ⟨s, bytes, hbs, rfl, hpar, hdvd, habv⟩ := habv.chain hbhd
          rw [hinChain, hbhd]
          refine ⟨s, bytes ++ data, append_ne_nil_of_left_ne_nil hbs _, append_assoc _ _ _, ?_,
            fun hcont => ?_, habv⟩
          · rw [newPrefix_append_of_dvd hn (hdvd rfl), hnode]
            exact hpar
          · rw [length_append, hchn hcont]
            exact Nat.dvd_add (hdvd rfl) dvd_rfl
        | false =>
          -- The first node of a chain.
          have hopen' : Opens layout tree path (.prefixNode false data child) start false := by rwa [hbhd] at hopen
          rw [hinChain, hbhd]
          refine ⟨start, data, hdata, rfl, hnode.symm, fun hcont => ?_, hopen', fun hpassed => ?_, habv.below hbhd⟩
          · rw [hchn hcont]
          · obtain ⟨hpath, hst, htree, -⟩ := habv.root hbhd hpassed
            exact ⟨hst, hpath, htree⟩
      · rw [hcmp, hkey]
        refine ⟨_, rfl, .inl (hopen.unchanged ?_)⟩
        rw [holds_prefixNode, ← hdrop, hrst]
        rintro ⟨rest', heq, -⟩
        rw [append_assoc] at heq
        exact hby (cons.inj (append_cancel_left heq)).1.symm
      · rw [hdrop] at hfree hout
        exact absurd (bytes_eq_nil hout hfree) hbs

end

end Art

end WfOpt

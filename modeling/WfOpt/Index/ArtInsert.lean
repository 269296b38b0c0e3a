import WfOpt.Index.ArtReplace

/-!
# Insertions into an adaptive radix tree

An insertion keeps the shape of a tree and adds the row id behind the key. There are four places where the tree changes:
a node gets another child, a leaf node another byte, a prefix is split into a `Node4` with two children, and an inlined
row id becomes a subtree with two row ids (`mergeInlined_spec`), which outside of gates is a new gate.
-/

namespace WfOpt

open List Function

namespace Art

variable {layout : Layout} {n : ℕ} {rowId : RowId} {info : InsertInfo} {child : Node}

/-! ## A `Node4` with two children -/

/-- Two children in an empty node. -/
def pairChildren (left : UInt8) (l : Node) (right : UInt8) (r : Node) : UInt8 → Node :=
  update (update (fun _ => .empty) left l) right r

/-- A `Node4` that has just got its two children. -/
def pairNode (gate : Bool) (left : UInt8) (l : Node) (right : UInt8) (r : Node) : Node :=
  .inner gate .node4 (insertByte right [left]) (pairChildren left l right r)

section

variable {left right : UInt8} {l r : Node}

theorem insertChild_newNode4 (gate : Bool) :
    (insertChild left l (newNode4 gate)).bind (insertChild right r) = some (pairNode gate left l right r) := rfl

theorem sorted_pair (hne : left ≠ right) : (insertByte right [left]).Pairwise (· < ·) :=
  sorted_insertByte (pairwise_singleton _ _) fun h => hne (mem_singleton.1 h).symm

theorem fits_pair (hne : left ≠ right) : Fits 2 4 (insertByte right [left]) := by
  refine ⟨sorted_pair hne, ?_, ?_⟩
  · rw [length_insertByte]
    exact le_rfl
  · rw [length_insertByte]
    exact (by decide : 2 ≤ 4)

theorem pairChildren_left (hne : left ≠ right) : pairChildren left l right r left = l := by
  rw [pairChildren, update_of_ne hne, update_self]

theorem pairChildren_right : pairChildren left l right r right = r := by
  rw [pairChildren, update_self]

section

variable (hne : left ≠ right)

include hne

theorem exists_pair {P : UInt8 → Node → Prop} :
    (∃ byte ∈ insertByte right [left], P byte (pairChildren left l right r byte)) ↔ P left l ∨ P right r := by
  constructor
  · rintro ⟨byte, hby, h⟩
    rcases mem_insertByte.1 hby with rfl | hby
    · rw [pairChildren_right] at h
      exact .inr h
    · obtain rfl := mem_singleton.1 hby
      rw [pairChildren_left hne] at h
      exact .inl h
  · rintro (h | h)
    · exact ⟨left, mem_insertByte.2 (.inr (mem_singleton_self _)), by rwa [pairChildren_left hne]⟩
    · exact ⟨right, mem_insertByte.2 (.inl rfl), by rwa [pairChildren_right]⟩

theorem forall_pair {P : UInt8 → Node → Prop} (hl : P left l) (hr : P right r) :
    ∀ byte ∈ insertByte right [left], P byte (pairChildren left l right r byte) := by
  intro byte hby
  by_contra hnot
  rcases (exists_pair (P := fun byte node => ¬ P byte node) hne).1 ⟨byte, hby, hnot⟩ with h | h
  · exact h hl
  · exact h hr

theorem outside_pairNode (hl : Outside layout .thresholds l)
    (hr : Outside layout .thresholds r) : Outside layout .thresholds (pairNode false left l right r) :=
  ⟨fits_pair hne, forall_pair (P := fun _ node => Outside layout .thresholds node) hne hl hr⟩

theorem holds_pairNode {suffix : List UInt8} :
    Holds (pairNode false left l right r) suffix rowId ↔
      (∃ rest, suffix = left :: rest ∧ Holds l rest rowId) ∨ ∃ rest, suffix = right :: rest ∧ Holds r rest rowId :=
  holds_inner.trans (exists_pair (P := fun byte node => ∃ rest, suffix = byte :: rest ∧ Holds node rest rowId) hne)

theorem mem_gateRows_pairNode {gate : Bool} {path : List UInt8} :
    rowId ∈ gateRows (pairNode gate left l right r) path ↔
      rowId ∈ gateRows l (path ++ [left]) ∨ rowId ∈ gateRows r (path ++ [right]) :=
  mem_flatMap.trans (exists_pair (P := fun byte node => rowId ∈ gateRows node (path ++ [byte])) hne)

end

/-- A prefix that leads to a `Node4` with two children. Without any bytes, the node itself is behind the gate. -/
theorem inGate_pairNode (hne : left ≠ right) {root : Bool} {path bytes : List UInt8}
    (hlen : (path ++ bytes).length < rowIdCount)
    (hl : InGate layout .thresholds l false (path ++ bytes ++ [left]))
    (hr : InGate layout .thresholds r false (path ++ bytes ++ [right])) :
    InGate layout .thresholds ((newPrefix layout.prefixCount bytes (pairNode false left l right r)).setGate root)
      root path := by
  have hchs := forall_pair (P := fun byte node => InGate layout .thresholds node false (path ++ bytes ++ [byte]))
    hne hl hr
  by_cases hbs : bytes = []
  · rw [hbs, append_nil] at hlen hchs
    rw [hbs, newPrefix_nil]
    exact ⟨rfl, hlen, fits_pair hne, hchs⟩
  · have hnode : InGate layout .thresholds (pairNode false left l right r) false (path ++ bytes) :=
      ⟨rfl, hlen, fits_pair hne, hchs⟩
    exact hnode.newPrefix hbs rfl rfl root

end

/-! ## Splitting a prefix -/

theorem splitRest_eq (child : Node) (hn : 0 < n) (bytes : List UInt8) (hle : bytes.length ≤ n)
    (hchn : newPrefix n (chainBytes child) (chainRest child) = child) :
    (if bytes ≠ [] then
      if child.isPrefix && !child.gate then appendPrefix n child false bytes else .prefixNode false bytes child
    else child) = newPrefix n (bytes ++ chainBytes child) (chainRest child) := by
  by_cases hbs : bytes = []
  · rw [if_neg (not_not.2 hbs), hbs, nil_append, hchn]
  · rw [if_pos hbs]
    change (if child.continues = true then _ else _) = _
    cases hcont : child.continues with
    | true =>
      have hne : bytes ++ chainBytes child ≠ [] := append_ne_nil_of_left_ne_nil hbs _
      rw [if_pos rfl, appendPrefix_spec hn child hbs hle, setGate_newPrefix hn hne]
    | false =>
      obtain ⟨hnil, hrst⟩ := chain_of_not_continues hcont
      rw [if_neg Bool.false_ne_true, hnil, hrst, append_nil, newPrefix_of_length_le hn hbs hle]

theorem insertIntoPrefix_spec (gate : Bool) {common bytes key : List UInt8} {byte keyByte : UInt8}
    {child new : Node} {depth : ℕ} {status : Bool} (hn : 1 < n) (hle : (common ++ byte :: bytes).length ≤ n)
    (hchn : newPrefix n (chainBytes child) (chainRest child) = child)
    (hnew : ∀ node, insertIntoNode n key rowId depth status node = insertChild keyByte new node) :
    insertIntoPrefix n gate (common ++ byte :: bytes) child key rowId common.length depth status =
      some ((newPrefix n common
        (pairNode false byte (newPrefix n (bytes ++ chainBytes child) (chainRest child)) keyByte new)).setGate gate) := by
  have hn' : 0 < n := Nat.lt_of_succ_lt hn
  have hby : (common ++ byte :: bytes).getD common.length 0 = byte := by
    rw [getD_eq_getElem?_getD, getElem?_append_right le_rfl, Nat.sub_self]
    rfl
  rw [length_append, length_cons] at hle
  have hrst := splitRest_eq child hn' bytes (by omega) hchn
  rw [insertIntoPrefix, split]
  by_cases hfull : common.length + 1 = n
  · -- The last byte of a full prefix.
    have hbs : bytes = [] := eq_nil_of_length_eq_zero (by omega)
    have hcomn : common ≠ [] := by
      rintro rfl
      exact hn.ne hfull
    rw [hbs] at hrst hby ⊢
    rw [if_pos hfull]
    dsimp only
    rw [hby, dropLast_concat, funext hnew, insertChild_newNode4, Option.map_some, ← hrst,
      newPrefix_of_length_le hn' hcomn (by omega)]
    rfl
  · have hdrop : (common ++ byte :: bytes).drop (common.length + 1) = bytes := by
      rw [append_cons, drop_left' (by simp)]
    have hlt : common.length + 1 < (common ++ byte :: bytes).length ↔ bytes ≠ [] := by
      rw [length_append, length_cons, ← length_pos_iff]
      omega
    simp only [if_neg hfull, hdrop, hlt, hrst]
    by_cases hcomn : common = []
    · rw [hcomn] at hby ⊢
      rw [if_pos (show ([] : List UInt8).length = 0 from rfl)]
      rw [hby, funext hnew, insertChild_newNode4]
      rfl
    · rw [if_neg (mt eq_nil_of_length_eq_zero hcomn)]
      rw [hby, funext hnew, insertChild_newNode4, Option.map_some, take_left,
        newPrefix_of_length_le hn' hcomn (by omega)]
      rfl

/-! ## Merging two row ids -/

/-- Two keys of the same length go on in the same way up to the first byte that differs. -/
theorem exists_mismatch {key other : List UInt8} (hlen : key.length = other.length) (hne : key ≠ other) :
    ∃ common byte otherByte rest otherRest, key = common ++ byte :: rest ∧ other = common ++ otherByte :: otherRest ∧
      byte ≠ otherByte := by
  rcases comparePrefix_cases other key 0 with ⟨rest, heq, -⟩ | ⟨common, byte, otherByte, rest, otherRest, hkey, hoth, h, -⟩ |
    ⟨bytes, hbs, heq, -⟩
  · rw [drop_zero] at heq
    have hnil : rest = [] := by
      refine eq_nil_of_length_eq_zero ?_
      have := congrArg length heq
      rw [length_append] at this
      omega
    exact absurd (heq.trans (by rw [hnil, append_nil])).symm hne
  · exact ⟨common, byte, otherByte, rest, otherRest, hkey, hoth, h⟩
  · have := congrArg length heq
    rw [drop_zero, length_append] at this
    exact absurd (eq_nil_of_length_eq_zero (by omega)) hbs

theorem mismatchPos_spec {common rest otherRest : List UInt8} {byte otherByte : UInt8} (hne : byte ≠ otherByte)
    {start : ℕ} (hst : start ≤ common.length) :
    mismatchPos (common ++ byte :: rest) (common ++ otherByte :: otherRest) start = some common.length := by
  rw [mismatchPos, find?_range'_eq_some]
  refine ⟨?_, ?_, fun i _ hi => ?_⟩
  · simpa using hne
  · rw [mem_range'_1, length_append, length_cons]
    omega
  · rw [getElem?_append_left hi, getElem?_append_left hi]
    simp

/-- Two row ids become a subtree, behind the path that they have in common with the node. -/
theorem mergeInlined_spec (layout : Layout) {left right : RowId} (hne : left ≠ right) {path : List UInt8}
    (hlft : path <+: rowIdKey left) (hrt : path <+: rowIdKey right) {status : Bool} {depth : ℕ}
    (hdep : path.length = if status then depth else 0) :
    ∃ node, mergeInlined layout.prefixCount left right status depth = some node ∧
      InGate layout .thresholds node (!status) path ∧ node.isInlined = false ∧
      ∀ x, x ∈ gateRows node path ↔ x = left ∨ x = right := by
  have hn := layout.prefixCount_pos
  obtain ⟨common, byte, otherByte, rest, otherRest, hkey, hoth, hby⟩ :=
    exists_mismatch ((length_rowIdKey left).trans (length_rowIdKey right).symm) (rowIdKey_injective.ne hne)
  have hlen : common.length + rest.length = rowIdCount := by
    have := length_rowIdKey left
    rw [hkey, length_append, length_cons] at this
    exact Nat.succ.inj this
  have hpath : path <+: common := by
    rw [hkey] at hlft
    rw [hoth] at hrt
    refine prefix_of_prefix_length_le hlft (prefix_append _ _) (le_of_not_gt fun hlt => ?_)
    have hl := prefix_of_prefix_length_le (isPrefix_concat common byte rest) hlft
      (by simpa [Nat.succ_le_iff] using hlt)
    have hr := prefix_of_prefix_length_le (isPrefix_concat common otherByte otherRest) hrt
      (by simpa [Nat.succ_le_iff] using hlt)
    exact hby (eq_of_concat hl hr)
  obtain ⟨bytes, rfl⟩ := hpath
  have hmismatch : mismatchPos (rowIdKey left) (rowIdKey right) (if status then depth else 0) =
      some (path ++ bytes).length := by
    rw [← hdep, hkey, hoth]
    refine mismatchPos_spec hby ?_
    rw [length_append]
    exact Nat.le_add_right _ _
  have hbs : ((rowIdKey left).take (path ++ bytes).length).drop (if status then depth else 0) = bytes := by
    rw [← hdep, hkey, take_left, drop_left]
  have hleftByte : (rowIdKey left).getD (path ++ bytes).length 0 = byte := by
    rw [hkey, getD_eq_getElem?_getD, getElem?_append_right le_rfl, Nat.sub_self]
    rfl
  have hrightByte : (rowIdKey right).getD (path ++ bytes).length 0 = otherByte := by
    rw [hoth, getD_eq_getElem?_getD, getElem?_append_right le_rfl, Nat.sub_self]
    rfl
  rw [mergeInlined, hmismatch]
  dsimp only
  rw [hbs, hleftByte, hrightByte]
  by_cases hlst : (path ++ bytes).length = rowIdCount
  · -- Only the last bytes differ.
    have hrst : rest = [] := eq_nil_of_length_eq_zero (by omega)
    have hotherRest : otherRest = [] := by
      have := length_rowIdKey right
      rw [hoth, length_append, length_cons] at this
      exact eq_nil_of_length_eq_zero (by omega)
    have hlf : InGate layout .thresholds (.leafNode false .node7Leaf (insertByte otherByte [byte])) false
        (path ++ bytes) :=
      ⟨rfl, rfl, hlst, sorted_pair hby, by rw [length_insertByte]; exact le_rfl,
        by rw [length_insertByte]; exact (by decide : 2 ≤ 7)⟩
    rw [if_pos hlst]
    refine ⟨(newPrefix layout.prefixCount bytes (.leafNode false .node7Leaf (insertByte otherByte [byte]))).setGate
      !status, rfl, ?_, ?_, fun x => ?_⟩
    · by_cases hnil : bytes = []
      · have hstat : status = true := by
          refine Bool.eq_true_of_not_eq_false ?_
          rintro rfl
          rw [if_neg Bool.false_ne_true] at hdep
          rw [hnil, append_nil, hdep] at hlst
          exact absurd hlst (by decide)
        rw [hnil, append_nil] at hlf
        rw [hnil, hstat]
        exact hlf
      · exact hlf.newPrefix hnil rfl rfl _
    · exact (isInlined_setGate _ _).trans (isInlined_newPrefix hn rfl bytes)
    · rw [gateRows_setGate, gateRows_newPrefix hn, gateRows, mem_map]
      have hgetLeft : getRowId (path ++ bytes ++ [byte]) = left := by
        rw [← hrst, ← hkey, getRowId_rowIdKey]
      have hgetRight : getRowId (path ++ bytes ++ [otherByte]) = right := by
        rw [← hotherRest, ← hoth, getRowId_rowIdKey]
      constructor
      · rintro ⟨b, hb, rfl⟩
        rcases mem_insertByte.1 hb with rfl | hb
        · exact .inr hgetRight
        · obtain rfl := mem_singleton.1 hb
          exact .inl hgetLeft
      · rintro (rfl | rfl)
        · exact ⟨byte, mem_insertByte.2 (.inr (mem_singleton_self _)), hgetLeft⟩
        · exact ⟨otherByte, mem_insertByte.2 (.inl rfl), hgetRight⟩
  · rw [if_neg hlst, insertChild_newNode4]
    refine ⟨_, rfl, ?_, ?_, fun x => ?_⟩
    · refine inGate_pairNode hby (by omega) ⟨rfl, ?_⟩ ⟨rfl, ?_⟩
      · rw [hkey]
        exact isPrefix_concat _ _ _
      · rw [hoth]
        exact isPrefix_concat _ _ _
    · exact (isInlined_setGate _ _).trans (isInlined_newPrefix hn rfl bytes)
    · rw [gateRows_setGate, gateRows_newPrefix hn, mem_gateRows_pairNode hby, gateRows, gateRows,
        mem_singleton, mem_singleton]

/-! ## Insertions into a gate -/

theorem exists_rowIdKey_concat {path : List UInt8} (h : path <+: rowIdKey rowId) (hlen : path.length ≤ rowIdCount) :
    ∃ byte, (rowIdKey rowId)[path.length]? = some byte ∧ path ++ [byte] <+: rowIdKey rowId := by
  obtain ⟨rest, hrst⟩ := h
  cases rest with
  | nil =>
    have := length_rowIdKey rowId
    rw [← hrst, append_nil] at this
    exact absurd (this ▸ hlen) (Nat.not_succ_le_self _)
  | cons byte rest =>
    refine ⟨byte, ?_, hrst ▸ isPrefix_concat path byte rest⟩
    rw [← hrst, getElem?_append_right le_rfl, Nat.sub_self]
    rfl

theorem Descent.enter_false (d : Descent) (rowId : RowId) : d.enter false rowId = d := by
  rw [Descent.enter, Bool.and_false]
  rfl

namespace ReplacesIn

variable {root : Bool} {path : List UInt8}

theorem insertChild {type : NodeType} {keys : List UInt8} {children : UInt8 → Node} {byte : UInt8}
    (h : InGate layout .thresholds (.inner root type keys children) root path) (hnew : byte ∉ keys)
    (hby : path ++ [byte] <+: rowIdKey rowId) :
    ReplacesIn layout (.inner root type keys children)
      (.inner root (if keys.length = type.capacity then type.grown else type) (insertByte byte keys)
        (update children byte (.inlined rowId))) root path rowId True := by
  have hne : ∀ b ∈ keys, b ≠ byte := fun b hb heq => hnew (heq ▸ hb)
  refine ⟨⟨rfl, h.2.1, fits_insertByte h.2.2.1 hnew, fun b hb => ?_⟩, fun x hx => ?_, iff_true_intro ?_⟩
  · rcases mem_insertByte.1 hb with rfl | hb
    · rw [update_self]
      exact ⟨rfl, hby⟩
    · rw [update_of_ne (hne b hb)]
      exact h.2.2.2 b hb
  · rw [gateRows, gateRows, mem_flatMap, mem_flatMap]
    constructor
    · rintro ⟨b, hb, hmem⟩
      rcases mem_insertByte.1 hb with rfl | hb
      · rw [update_self, gateRows, mem_singleton] at hmem
        exact absurd hmem hx
      · rw [update_of_ne (hne b hb)] at hmem
        exact ⟨b, hb, hmem⟩
    · rintro ⟨b, hb, hmem⟩
      exact ⟨b, mem_insertByte.2 (.inr hb), by rwa [update_of_ne (hne b hb)]⟩
  · rw [gateRows, mem_flatMap]
    exact ⟨byte, mem_insertByte.2 (.inl rfl), by rw [update_self]; exact mem_singleton_self _⟩

theorem insertByte {type : LeafType} {bytes : List UInt8} {byte : UInt8}
    (h : InGate layout .thresholds (.leafNode false type bytes) false path) (hnew : byte ∉ bytes)
    (hrow : getRowId (path ++ [byte]) = rowId) :
    ReplacesIn layout (.leafNode false type bytes)
      (.leafNode false (if bytes.length = type.capacity then type.grown else type) (insertByte byte bytes)) false path
      rowId True := by
  refine ⟨⟨rfl, rfl, h.2.2.1, fits_insertByte_leaf h.2.2.2 hnew⟩, fun x hx => ?_, iff_true_intro ?_⟩
  · rw [gateRows, gateRows, mem_map, mem_map]
    constructor
    · rintro ⟨b, hb, rfl⟩
      rcases mem_insertByte.1 hb with rfl | hb
      · exact absurd hrow hx
      · exact ⟨b, hb, rfl⟩
    · rintro ⟨b, hb, rfl⟩
      exact ⟨b, mem_insertByte.2 (.inr hb), rfl⟩
  · exact mem_map.2 ⟨byte, mem_insertByte.2 (.inl rfl), hrow⟩

theorem insertPrefix {common bytes : List UInt8} {byte keyByte : UInt8}
    (h : InGate layout .thresholds (.prefixNode root (common ++ byte :: bytes) child) root path)
    (hne : byte ≠ keyByte) (hkey : path ++ common ++ [keyByte] <+: rowIdKey rowId) :
    ReplacesIn layout (.prefixNode root (common ++ byte :: bytes) child)
      ((newPrefix layout.prefixCount common (pairNode false byte
        (newPrefix layout.prefixCount (bytes ++ chainBytes child) (chainRest child)) keyByte
    (.inlined rowId))).setGate
        root) root path rowId True := by
  have hn := layout.prefixCount_pos
  obtain ⟨-, -, -, -, hinl, hch⟩ := h
  obtain ⟨-, hrst, hst, hrestInlined⟩ := hch.chain
  have hpath : path ++ (common ++ byte :: bytes) ++ chainBytes child =
      path ++ common ++ [byte] ++ (bytes ++ chainBytes child) := by simp
  have hlen := hch.length_le_rowIdCount hinl
  have hlt : (path ++ common).length < rowIdCount := by
    refine lt_of_lt_of_le ?_ hlen
    simp only [length_append, length_cons]
    omega
  have hlft : InGate layout .thresholds
      (newPrefix layout.prefixCount (bytes ++ chainBytes child) (chainRest child)) false (path ++ common ++ [byte]) := by
    rw [hpath] at hrst
    by_cases hnil : bytes ++ chainBytes child = []
    · rw [hnil, append_nil] at hrst
      rwa [hnil, newPrefix_nil]
    · have hnew := hrst.newPrefix hnil hst (hrestInlined.trans hinl) false
      rwa [setGate_newPrefix hn hnil] at hnew
  refine ⟨inGate_pairNode hne hlt hlft ⟨rfl, hkey⟩, fun x hx => ?_, ?_⟩
  · rw [gateRows_setGate, gateRows_newPrefix hn, mem_gateRows_pairNode hne, gateRows_newPrefix hn, ← hpath,
      ← gateRows_newPrefix hn, hch.chain.1]
    simp [gateRows, hx]
  · rw [gateRows_setGate, gateRows_newPrefix hn, mem_gateRows_pairNode hne]
    exact iff_true_intro (.inr (mem_singleton_self _))

end ReplacesIn

theorem insertLoop_inGate {node : Node} {root : Bool} {path : List UInt8}
    (h : InGate layout .thresholds node root path) (huniq : info.unique = false)
    (key : List UInt8) {d : Descent} (hd : d.enter root rowId = ⟨rowIdKey rowId, path.length, true⟩)
    (hpath : path <+: rowIdKey rowId) (hfr : rowId ∉ gateRows node path) :
    ∃ new, insertLoop layout info key rowId node d = some (new, .noConflict) ∧ new.isInlined = false ∧
      (node.isInlined = false → node.isPrefix = false → new.isPrefix = false) ∧
      ReplacesIn layout node new root path rowId True := by
  induction node generalizing root path d with
  | empty => exact absurd h not_false
  | inlined inlined =>
    obtain ⟨rfl, hinl⟩ := h
    rw [Descent.enter_false] at hd
    rw [gateRows, mem_singleton] at hfr
    obtain ⟨new, hnew, hgate, hkind, hrs⟩ := mergeInlined_spec layout (Ne.symm hfr) hinl hpath
        (show path.length = if true then path.length else 0 from rfl)
    refine ⟨new, ?_, hkind, fun h => absurd h Bool.noConfusion, hgate, fun x hx => ?_, ?_⟩
    · rw [insertLoop, hd, insertIntoInlined, huniq]
      rw [hnew]
      rfl
    · rw [hrs, gateRows, mem_singleton, or_iff_left hx]
    · exact iff_true_intro ((hrs rowId).2 (.inr rfl))
  | leafNode gate type bytes =>
    obtain rfl : gate = false := h.1
    obtain rfl : root = false := h.2.1
    obtain ⟨byte, hby, hcat⟩ := exists_rowIdKey_concat hpath h.2.2.1.le
    have hrow : getRowId (path ++ [byte]) = rowId := by
      have heq := hcat.eq_of_length (by rw [length_append, h.2.2.1, length_rowIdKey]; rfl)
      rw [heq, getRowId_rowIdKey]
    have hnew : byte ∉ bytes := fun hmem => hfr (mem_map.2 ⟨byte, hmem, hrow⟩)
    refine ⟨_, ?_, rfl, fun _ _ => rfl, ReplacesIn.insertByte h hnew hrow⟩
    rw [h.2.2.1] at hby
    rw [insertLoop, Bool.and_false, Bool.false_and, if_neg Bool.false_ne_true, hd]
    dsimp only
    rw [hby]
    rfl
  | inner gate type keys children ih =>
    obtain rfl : gate = root := h.1
    obtain ⟨byte, hby, hcat⟩ := exists_rowIdKey_concat hpath h.2.1.le
    by_cases hmem : byte ∈ keys
    · have hfr' : rowId ∉ gateRows (children byte) (path ++ [byte]) := fun hrow =>
        hfr (mem_flatMap.2 ⟨byte, hmem, hrow⟩)
      obtain ⟨new, hnew, -, -, hrepl⟩ := ih byte (h.2.2.2 byte hmem)
        (d := ⟨rowIdKey rowId, path.length + 1, true⟩) (by rw [Descent.enter_false, length_append]; rfl)
        hcat hfr'
      refine ⟨_, ?_, rfl, fun _ _ => rfl, ReplacesIn.inner h hmem hcat hrepl⟩
      rw [insertLoop, huniq, Bool.and_false, if_neg Bool.false_ne_true, hd]
      dsimp only
      rw [hby]
      dsimp only
      rw [if_pos hmem, hnew]
      rfl
    · refine ⟨_, ?_, rfl, fun _ _ => rfl, ReplacesIn.insertChild h hmem hcat⟩
      rw [insertLoop, huniq, Bool.and_false, if_neg Bool.false_ne_true, hd]
      dsimp only
      rw [hby]
      dsimp only
      rw [if_neg hmem, insertIntoNode, if_pos rfl, hby]
      rfl
  | prefixNode gate data child ih =>
    obtain rfl : gate = root := h.1
    have hinl := h.2.2.2.2.1
    have hlen := h.2.2.2.2.2.length_le_rowIdCount hinl
    rw [length_append] at hlen
    obtain ⟨key', hkey'⟩ := id hpath
    have hdrop : (rowIdKey rowId).drop path.length = key' := by rw [← hkey', drop_left]
    rcases comparePrefix_cases (rowIdKey rowId) data path.length with ⟨rest, hrst, hcmp⟩ |
      ⟨common, byte, keyByte, bytes, rest, rfl, hrst, hne, hcmp⟩ | ⟨bytes, -, rfl, -⟩
    · have hcat : path ++ data <+: rowIdKey rowId := by
        rw [← hkey', ← hdrop, hrst, ← append_assoc]
        exact prefix_append _ _
      obtain ⟨new, hnew, hkind, hst, hrepl⟩ := ih h.2.2.2.2.2
        (by rw [Descent.enter_false, length_append]) hcat hfr
      refine ⟨_, ?_, rfl, fun _ h => absurd h Bool.noConfusion,
        ReplacesIn.prefixNode h hrepl (hst hinl h.isPrefix_child) hkind⟩
      rw [insertLoop, huniq, Bool.and_false, if_neg Bool.false_ne_true, hd]
      dsimp only
      rw [hcmp]
      rw [hnew]
      rfl
    · have hkey : rowIdKey rowId = path ++ common ++ keyByte :: rest := by
        rw [← hkey', ← hdrop, hrst, append_assoc]
      have hcat : path ++ common ++ [keyByte] <+: rowIdKey rowId := by
        rw [hkey]
        exact isPrefix_concat _ _ _
      have hby : (rowIdKey rowId)[path.length + common.length]? = some keyByte := by
        rw [hkey, ← length_append, getElem?_append_right le_rfl, Nat.sub_self]
        rfl
      have hinto : ∀ node, insertIntoNode layout.prefixCount (rowIdKey rowId) rowId (path.length + common.length) true
          node = insertChild keyByte (.inlined rowId) node := fun node => by
        rw [insertIntoNode, if_pos rfl, hby]
      have hspl := insertIntoPrefix_spec gate layout.one_lt_prefixCount h.2.2.1 h.2.2.2.2.2.chain.1 hinto
      refine ⟨_, ?_, ?_, fun _ h => absurd h Bool.noConfusion, ReplacesIn.insertPrefix h hne hcat⟩
      · rw [insertLoop, huniq, Bool.and_false, if_neg Bool.false_ne_true, hd]
        dsimp only
        rw [hcmp]
        dsimp only
        rw [hspl]
        rfl
      · exact (isInlined_setGate _ _).trans (isInlined_newPrefix layout.prefixCount_pos rfl common)
    · have hkeyLength := length_rowIdKey rowId
      rw [← hkey', length_append] at hkeyLength
      rw [hdrop, length_append] at hlen
      omega

/-! ## Insertions outside of gates -/

theorem holds_newPrefix_inlined (hn : 0 < n) {bytes suffix : List UInt8} {inlined rowId : RowId} :
    Holds (newPrefix n bytes (.inlined inlined)) suffix rowId ↔ suffix = bytes ∧ rowId = inlined := by
  rw [holds_newPrefix hn]
  constructor
  · rintro ⟨rest, rfl, h⟩
    obtain ⟨rfl, rfl⟩ := holds_inlined.1 h
    exact ⟨append_nil bytes, rfl⟩
  · rintro ⟨rfl, rfl⟩
    exact ⟨[], (append_nil suffix).symm, holds_inlined.2 ⟨rfl, rfl⟩⟩

theorem holds_chain (h : Outside layout .thresholds child) {suffix : List UInt8} :
    Holds child suffix rowId ↔ ∃ rest, suffix = chainBytes child ++ rest ∧ Holds (chainRest child) rest rowId := by
  conv_lhs => rw [← newPrefix_chain h]
  exact holds_newPrefix layout.prefixCount_pos

theorem holds_newPrefix_chain (h : Outside layout .thresholds child) {bytes suffix : List UInt8} :
    Holds (newPrefix layout.prefixCount (bytes ++ chainBytes child) (chainRest child)) suffix rowId ↔
      ∃ rest, suffix = bytes ++ rest ∧ Holds child rest rowId := by
  rw [holds_newPrefix layout.prefixCount_pos]
  constructor
  · rintro ⟨rest, rfl, hrst⟩
    exact ⟨chainBytes child ++ rest, append_assoc _ _ _, (holds_chain h).2 ⟨rest, rfl, hrst⟩⟩
  · rintro ⟨rest, rfl, hrst⟩
    obtain ⟨rest, rfl, hrst'⟩ := (holds_chain h).1 hrst
    exact ⟨rest, (append_assoc _ _ _).symm, hrst'⟩

theorem outside_inlined (layout : Layout) (bytes : List UInt8) (rowId : RowId) :
    Outside layout .thresholds (newPrefix layout.prefixCount bytes (.inlined rowId)) :=
  outside_newPrefix (show Outside layout .thresholds (.inlined rowId) from trivial) rfl bytes

namespace Replaces

variable {suffix : List UInt8}

/-- A node gets the rest of a key as its child. -/
theorem insertChild {type : NodeType} {keys : List UInt8} {children : UInt8 → Node} {byte : UInt8}
    (h : Outside layout .thresholds (.inner false type keys children)) (hnew : byte ∉ keys) :
    Replaces layout (.inner false type keys children)
      (.inner false (if keys.length = type.capacity then type.grown else type) (insertByte byte keys)
        (update children byte (newPrefix layout.prefixCount suffix (.inlined rowId)))) (byte :: suffix) rowId
      True := by
  have hn := layout.prefixCount_pos
  have hne : ∀ b ∈ keys, b ≠ byte := fun b hb heq => hnew (heq ▸ hb)
  refine ⟨⟨fits_insertByte h.1 hnew, fun b hb => ?_⟩, fun s x hs => ?_, iff_true_intro ?_⟩
  · rcases mem_insertByte.1 hb with rfl | hb
    · rw [update_self]
      exact outside_inlined layout suffix rowId
    · rw [update_of_ne (hne b hb)]
      exact h.2 b hb
  · rw [holds_inner, holds_inner]
    constructor
    · rintro ⟨b, hb, rest, rfl, hrst⟩
      rcases mem_insertByte.1 hb with rfl | hb
      · rw [update_self, holds_newPrefix_inlined hn] at hrst
        exact absurd ⟨by rw [hrst.1], hrst.2⟩ hs
      · rw [update_of_ne (hne b hb)] at hrst
        exact ⟨b, hb, rest, rfl, hrst⟩
    · rintro ⟨b, hb, rest, rfl, hrst⟩
      exact ⟨b, mem_insertByte.2 (.inr hb), rest, rfl, by rwa [update_of_ne (hne b hb)]⟩
  · rw [holds_inner]
    refine ⟨byte, mem_insertByte.2 (.inl rfl), suffix, rfl, ?_⟩
    rw [update_self]
    exact (holds_newPrefix_inlined hn).2 ⟨rfl, rfl⟩

theorem insertPrefix {common bytes : List UInt8} {byte keyByte : UInt8}
    (h : Outside layout .thresholds (.prefixNode false (common ++ byte :: bytes) child)) (hne : byte ≠ keyByte) :
    Replaces layout (.prefixNode false (common ++ byte :: bytes) child)
      (newPrefix layout.prefixCount common (pairNode false byte
        (newPrefix layout.prefixCount (bytes ++ chainBytes child) (chainRest child)) keyByte
        (newPrefix layout.prefixCount suffix (.inlined rowId)))) (common ++ keyByte :: suffix) rowId True := by
  have hn := layout.prefixCount_pos
  have hch := h.2.2.2
  refine ⟨?_, fun s x hs => ?_, iff_true_intro ?_⟩
  · refine outside_newPrefix (outside_pairNode hne ?_ (outside_inlined layout suffix rowId)) rfl common
    exact outside_newPrefix (outside_chainRest hch) (continues_chainRest child) _
  · rw [holds_newPrefix hn, holds_prefixNode]
    constructor
    · rintro ⟨rest, rfl, hrst⟩
      rcases (holds_pairNode hne).1 hrst with ⟨rest, rfl, hold⟩ | ⟨rest, rfl, hnew⟩
      · obtain ⟨rest, rfl, hrst'⟩ := (holds_newPrefix_chain hch).1 hold
        exact ⟨rest, by simp, hrst'⟩
      · obtain ⟨rfl, rfl⟩ := (holds_newPrefix_inlined hn).1 hnew
        exact absurd ⟨rfl, rfl⟩ hs
    · rintro ⟨rest, rfl, hrst⟩
      exact ⟨byte :: (bytes ++ rest), by simp,
        (holds_pairNode hne).2 (.inl ⟨_, rfl, (holds_newPrefix_chain hch).2 ⟨rest, rfl, hrst⟩⟩)⟩
  · exact (holds_newPrefix hn).2 ⟨_, rfl,
      (holds_pairNode hne).2 (.inr ⟨_, rfl, (holds_newPrefix_inlined hn).2 ⟨rfl, rfl⟩⟩)⟩

end Replaces

/-- In the delete index of a unique index, a key has one row id. -/
def InsertInfo.Deletes (info : InsertInfo) (key : List UInt8) : Prop :=
  info.unique = true → ∀ deleteArt, info.deleteArt = some deleteArt →
    lookup key deleteArt 0 = some none ∨ ∃ deleted, lookup key deleteArt 0 = some (some (.inlined deleted))

/-- What an insertion does to a subtree: nothing if there is a conflict. -/
def Inserts (layout : Layout) (info : InsertInfo) (old new : Node) (suffix : List UInt8) (rowId : RowId) : Prop :=
  info.unique = true ∧ new = old ∨ Replaces layout old new suffix rowId True

theorem insertIntoInlined_spec {key : List UInt8} {rowId inlined : RowId} (depth : ℕ)
    (hdel : info.Deletes key) (hne : inlined ≠ rowId) :
    ∃ new c, insertIntoInlined layout info key rowId inlined depth false = some (new, c) ∧ new.continues = false ∧
      Inserts layout info (.inlined inlined) new [] rowId := by
  obtain ⟨node, hnode, hgate, -, hrs⟩ := mergeInlined_spec layout hne nil_prefix nil_prefix
    (show ([] : List UInt8).length = if false then depth else 0 from rfl)
  have hmerge : Replaces layout (.inlined inlined) node [] rowId True := by
    have hlf : node.isInlined ∨ node.gate := .inr hgate.gate_eq
    refine ⟨outside_of_leaf (.inr ⟨hgate.gate_eq, hgate.gateShape⟩), fun s x hs => ?_, ?_⟩
    · rw [holds_leaf hlf, holds_inlined, hrs]
      refine and_congr_right fun hnil => or_iff_left fun hx => hs ⟨hnil, hx⟩
    · rw [holds_leaf hlf, hrs]
      exact iff_true_intro ⟨rfl, .inr rfl⟩
  have hcont : node.continues = false := continues_of_gate hgate.gate_eq
  have hmrg : ∃ new c, (mergeInlined layout.prefixCount inlined rowId false depth).map ((·, ConflictType.noConflict)) =
      some (new, c) ∧ new.continues = false ∧ Inserts layout info (.inlined inlined) new [] rowId :=
    ⟨node, .noConflict, by rw [hnode]; rfl, hcont, .inr hmerge⟩
  rw [insertIntoInlined]
  by_cases hfree : (!info.unique || info.appendMode = .insertDuplicates) = true
  · rw [if_pos hfree]
    exact hmrg
  · have huniq : info.unique = true := by
      by_contra huniq
      rw [Bool.not_eq_true] at huniq
      exact hfree (by rw [huniq]; rfl)
    have hsm : ∀ c : ConflictType, ∃ new c', some (Node.inlined inlined, c) = some (new, c') ∧ new.continues = false ∧
        Inserts layout info (.inlined inlined) new [] rowId :=
      fun c => ⟨_, c, rfl, rfl, .inl ⟨huniq, rfl⟩⟩
    rw [if_neg hfree]
    cases hart : info.deleteArt with
    | none =>
      split_ifs
      · exact hsm _
      · exact hsm _
    | some deleteArt =>
      dsimp only
      rcases hdel huniq deleteArt hart with hlook | ⟨deleted, hlook⟩
      · rw [hlook]
        exact hsm _
      · rw [hlook]
        dsimp only
        split_ifs
        · exact hsm _
        · exact hmrg

theorem insertLoop_gate {node : Node} (h : GateShape layout .thresholds node) (info : InsertInfo)
    (key : List UInt8) (depth : ℕ) (hfr : rowId ∉ gateRows node []) :
    ∃ new c, insertLoop layout info key rowId node ⟨key, depth, false⟩ = some (new, c) ∧ new.continues = false ∧
      Inserts layout info node new [] rowId := by
  have hgate := h.1.gate_eq
  cases huniq : info.unique with
  | true =>
    refine ⟨node, .transaction, ?_, continues_of_gate hgate, .inl ⟨huniq, rfl⟩⟩
    cases node with
    | prefixNode gate data child | inner gate type keys children =>
      obtain rfl : gate = true := hgate
      rw [insertLoop, huniq]
      rfl
    | leafNode gate type bytes => exact absurd h.1.2.1 Bool.noConfusion
    | _ => exact absurd hgate Bool.noConfusion
  | false =>
    obtain ⟨new, hnew, -, -, hrepl⟩ := insertLoop_inGate h.1 huniq key
      (d := ⟨key, depth, false⟩) rfl nil_prefix hfr
    exact ⟨new, _, hnew, continues_of_gate hrepl.inGate.gate_eq, .inr (.of_inGate hgate hrepl)⟩

/-- An insertion outside of gates, where no key of the subtree ends within the rest of the inserted one, nor the other way
    round. -/
theorem insertLoop_outside {node : Node} (h : Outside layout .thresholds node)
    {key : List UInt8} (hdel : info.Deletes key) {depth : ℕ}
    (hfree : ∀ leaf ∈ leaves node, PrefixFree leaf.1 (key.drop depth))
    (hfr : ¬ Holds node (key.drop depth) rowId) :
    ∃ new c, insertLoop layout info key rowId node ⟨key, depth, false⟩ = some (new, c) ∧
      (new.continues = true → node.continues = true) ∧ Inserts layout info node new (key.drop depth) rowId := by
  have hn := layout.prefixCount_pos
  induction node generalizing depth with
  | empty | leafNode gate type bytes => exact absurd h not_false
  | inlined inlined =>
    have hnil : key.drop depth = [] := suffix_eq_nil (.inl rfl) hfree
    rw [hnil, holds_inlined, not_and] at hfr
    obtain ⟨new, c, hnew, hcont, hinss⟩ := insertIntoInlined_spec depth hdel (Ne.symm (hfr rfl))
    rw [hnil]
    exact ⟨new, c, hnew, fun h => absurd h (by rw [hcont]; exact Bool.false_ne_true), hinss⟩
  | inner gate type keys children ih =>
    cases gate with
    | true =>
      have hnil : key.drop depth = [] := suffix_eq_nil (.inr rfl) hfree
      rw [hnil, holds_leaf (.inr rfl), not_and] at hfr
      obtain ⟨new, c, hnew, hcont, hinss⟩ := insertLoop_gate h info key depth (hfr rfl)
      rw [hnil]
      exact ⟨new, c, hnew, fun h => absurd h (by rw [hcont]; exact Bool.false_ne_true), hinss⟩
    | false =>
      cases hdrop : key.drop depth with
      | nil => exact absurd hdrop (suffix_ne_nil h hfree)
      | cons byte suffix =>
        obtain ⟨hby, hsuffix⟩ := drop_eq_cons hdrop
        rw [hdrop] at hfree hfr
        by_cases hmem : byte ∈ keys
        · have hfree' : ∀ leaf ∈ leaves (children byte), PrefixFree leaf.1 (key.drop (depth + 1)) :=
            hsuffix ▸ free_inner hfree hmem
          have hfr' : ¬ Holds (children byte) (key.drop (depth + 1)) rowId := by
            rw [hsuffix]
            exact fun hrow => hfr (holds_inner.2 ⟨byte, hmem, suffix, rfl, hrow⟩)
          obtain ⟨new, c, hnew, -, hinss⟩ := ih byte (h.2 byte hmem) hfree' hfr'
          refine ⟨.inner false type keys (update children byte new), c, ?_, fun h => absurd h Bool.noConfusion, ?_⟩
          · rw [insertLoop, Bool.and_false, Bool.false_and, if_neg Bool.false_ne_true, Descent.enter_false]
            dsimp only
            rw [hby]
            dsimp only
            rw [if_pos hmem, hnew]
            rfl
          · rw [hsuffix] at hinss
            rcases hinss with ⟨huniq, rfl⟩ | hrepl
            · exact .inl ⟨huniq, by rw [update_eq_self]⟩
            · exact .inr (.inner h hmem hrepl)
        · refine ⟨_, .noConflict, ?_, fun h => absurd h Bool.noConfusion, .inr (.insertChild h hmem)⟩
          rw [insertLoop, Bool.and_false, Bool.false_and, if_neg Bool.false_ne_true, Descent.enter_false]
          dsimp only
          rw [hby]
          dsimp only
          rw [if_neg hmem, insertIntoNode, if_neg Bool.false_ne_true, hby, hsuffix]
          rfl
  | prefixNode gate data child ih =>
    cases gate with
    | true =>
      have hnil : key.drop depth = [] := suffix_eq_nil (.inr rfl) hfree
      rw [hnil, holds_leaf (.inr rfl), not_and] at hfr
      obtain ⟨new, c, hnew, hcont, hinss⟩ := insertLoop_gate h info key depth (hfr rfl)
      rw [hnil]
      exact ⟨new, c, hnew, fun h => absurd h (by rw [hcont]; exact Bool.false_ne_true), hinss⟩
    | false =>
      rcases comparePrefix_cases key data depth with ⟨rest, hrst, hcmp⟩ |
        ⟨common, byte, keyByte, bytes, rest, rfl, hrst, hne, hcmp⟩ | ⟨bytes, hbs, rfl, -⟩
      · have hdrop : key.drop (depth + data.length) = rest := drop_eq_append hrst
        have hfree' : ∀ leaf ∈ leaves child, PrefixFree leaf.1 (key.drop (depth + data.length)) := by
          rw [hrst] at hfree
          exact hdrop ▸ free_prefixNode hfree
        have hfr' : ¬ Holds child (key.drop (depth + data.length)) rowId := by
          rw [hdrop]
          rw [hrst] at hfr
          exact fun hrow => hfr (holds_prefixNode.2 ⟨rest, rfl, hrow⟩)
        obtain ⟨new, c, hnew, hcont, hinss⟩ := ih h.2.2.2 hfree' hfr'
        refine ⟨.prefixNode false data new, c, ?_, fun _ => rfl, ?_⟩
        · rw [insertLoop, Bool.and_false, Bool.false_and, if_neg Bool.false_ne_true, Descent.enter_false]
          dsimp only
          rw [hcmp]
          rw [hnew]
          rfl
        · rw [hdrop] at hinss
          rw [hrst]
          rcases hinss with ⟨huniq, rfl⟩ | hrepl
          · exact .inl ⟨huniq, rfl⟩
          · exact .inr (.prefixNode h hrepl hcont)
      · obtain ⟨hby, hsuffix⟩ := drop_eq_cons (drop_eq_append hrst)
        have hinto : ∀ node, insertIntoNode layout.prefixCount key rowId (depth + common.length) false node =
            insertChild keyByte (newPrefix layout.prefixCount rest (.inlined rowId)) node := fun node => by
          rw [insertIntoNode, if_neg Bool.false_ne_true, hby, hsuffix]
        have hspl := insertIntoPrefix_spec false layout.one_lt_prefixCount h.2.1 (newPrefix_chain h.2.2.2) hinto
        rw [hrst]
        refine ⟨_, .noConflict, ?_, fun _ => rfl, .inr (.insertPrefix h hne)⟩
        rw [insertLoop, Bool.and_false, Bool.false_and, if_neg Bool.false_ne_true, Descent.enter_false]
        dsimp only
        rw [hcmp]
        dsimp only
        rw [hspl]
        by_cases hcomn : common = []
        · rw [hcomn]
          rfl
        · rw [setGate_newPrefix hn hcomn]
          rfl
      · exact absurd (bytes_eq_nil h hfree) hbs

theorem insert_spec {tree : Node} (h : Shape layout .thresholds tree) {key : List UInt8} (hdel : info.Deletes key)
    (hfree : ∀ leaf ∈ leaves tree, PrefixFree leaf.1 key)
    (hfr : ¬ Holds tree key rowId) :
    ∃ new c, insert layout info key rowId tree = some (new, c) ∧ Inserts layout info tree new key rowId := by
  rcases h with rfl | h
  · have hn := layout.prefixCount_pos
    refine ⟨_, .noConflict, rfl, .inr ⟨outside_inlined layout key rowId, fun s x hs => ?_, ?_⟩⟩
    · exact iff_of_false (fun hrow => hs ((holds_newPrefix_inlined hn).1 hrow)) (not_holds_empty s x)
    · exact iff_true_intro ((holds_newPrefix_inlined hn).2 ⟨rfl, rfl⟩)
  · obtain ⟨new, c, hnew, -, hinss⟩ := @insertLoop_outside _ _ _ _ h _ hdel 0 hfree hfr
    exact ⟨new, c, by rw [insert, h.isEmpty_eq, if_neg Bool.false_ne_true, hnew], hinss⟩

end Art

end WfOpt

import WfOpt.Index.ArtDelete
import WfOpt.Index.ArtSearch
import WfOpt.Lib.Transition

/-!
# Runs of an adaptive radix tree

An index goes through insertions and deletions, for keys of which none is a prefix of another one. It keeps its
shape (`shape_of_reachable`), and the row ids of a key are those inserted and not deleted since
(`behaves_of_reachable`), as long as no deletion has to remove a `Node4` deep in a gate.

Otherwise, the row id that is left has a prefix there. Once it is the only one, the gate is that prefix; if it is
deleted too, nothing is behind the prefix of the key, and the next insertion fails.
-/

namespace WfOpt

open List Finset
open Bool (noConfusion false_ne_true and_eq_true_iff not_eq_true')

namespace Art

variable {layout : Layout} {tree : Node} {key : List UInt8} {rowId : RowId} {op : Operation}

/-! ## Operations -/

/-- What is done to an index. -/
inductive Operation
  | insert (info : InsertInfo) (key : List UInt8) (rowId : RowId)
  | delete (key : List UInt8) (rowId : RowId)

namespace Operation

/-- The tree that an operation leaves. -/
def apply (layout : Layout) : Operation → Node → Option Node
  | .insert info key rowId, tree => (Art.insert layout info key rowId tree).map Prod.fst
  | .delete key rowId, tree => Art.delete layout key rowId tree

/-- The callers insert keys of a set of keys, and no row id twice for a key. -/
def Admissible (K : Set (List UInt8)) : Operation → Node → Prop
  | .insert info key rowId, tree => key ∈ K ∧ info.Deletes key ∧ ¬ Holds tree key rowId
  | .delete key _, _ => key ∈ K

/-- Whether a deletion removes a `Node4` deep in the gate of its key, and leaves an inlined row id. -/
def deletesDeepPair : Operation → Node → Bool
  | .insert _ _ _, _ => false
  | .delete key rowId, tree => (leaves tree).any fun leaf => leaf.1 = key && deepPair rowId leaf.2 0

end Operation

/-- Keys that are not empty, of which none is a prefix of another one. -/
structure KeySet (K : Set (List UInt8)) : Prop where
  ne_nil : ∀ key ∈ K, key ≠ []
  prefixFree : ∀ key ∈ K, ∀ key' ∈ K, PrefixFree key key'

/-- A step of an index. -/
def Step (layout : Layout) (K : Set (List UInt8)) (allowed : Operation → Node → Prop) (tree tree' : Node) : Prop :=
  ∃ op : Operation, op.Admissible K tree ∧ allowed op tree ∧ op.apply layout tree = some tree'

/-! ## What is behind a key -/

variable {node : Node}

theorem exists_mem_gateRows (h : Outside layout .thresholds node) {leaf : List UInt8 × Node}
    (hlf : leaf ∈ leaves node) : ∃ rowId, Holds node leaf.1 rowId := by
  have hne : gateRows leaf.2 [] ≠ [] := by
    rcases isInlined_or_gate_of_mem_leaves h hlf with hinl | ⟨-, hgate⟩
    · cases hnode : leaf.2 with
      | inlined rowId => exact cons_ne_nil _ _
      | _ => exact absurd (hnode ▸ hinl) noConfusion
    · exact hgate.1.gateRows_ne_nil
  obtain ⟨rowId, hrow⟩ := exists_mem_of_ne_nil _ hne
  exact ⟨rowId, leaf, hlf, rfl, hrow⟩

/-- The shape of an index, and keys from a set of keys. -/
structure HasShape (layout : Layout) (K : Set (List UInt8)) (tree : Node) : Prop where
  shape : Shape layout .thresholds tree
  mem_of_holds : ∀ key rowId, Holds tree key rowId → key ∈ K

namespace HasShape

variable {K : Set (List UInt8)}

theorem empty (layout : Layout) (K : Set (List UInt8)) : HasShape layout K .empty :=
  ⟨.inl rfl, fun key rowId h => absurd h (not_holds_empty key rowId)⟩

theorem mem_of_mem_leaves (h : HasShape layout K tree) {leaf : List UInt8 × Node} (hlf : leaf ∈ leaves tree) :
    leaf.1 ∈ K := by
  rcases h.shape with rfl | hout
  · exact absurd hlf not_mem_nil
  · obtain ⟨rowId, hrow⟩ := exists_mem_gateRows hout hlf
    exact h.mem_of_holds _ rowId hrow

/-- An insertion does nothing because of a conflict, or it adds the row id. -/
theorem insert (h : HasShape layout K tree) (hK : KeySet K) {info : InsertInfo}
    (hkey : key ∈ K) (hdel : info.Deletes key) (hfr : ¬ Holds tree key rowId) :
    ∃ tree', (Operation.insert info key rowId).apply layout tree = some tree' ∧ HasShape layout K tree' ∧
      (info.unique = true ∧ tree' = tree ∨ ∀ s x, Holds tree' s x ↔ Holds tree s x ∨ s = key ∧ x = rowId) := by
  obtain ⟨tree', c, hins, hinss⟩ := insert_spec h.shape hdel
    (fun leaf hlf => hK.prefixFree _ (h.mem_of_mem_leaves hlf) key hkey) hfr
  refine ⟨tree', by rw [Operation.apply, hins]; rfl, ?_⟩
  rcases hinss with ⟨huniq, rfl⟩ | hrepl
  · exact ⟨h, .inl ⟨huniq, rfl⟩⟩
  · have hhld : ∀ s x, Holds tree' s x ↔ Holds tree s x ∨ s = key ∧ x = rowId := by
      intro s x
      by_cases hpair : s = key ∧ x = rowId
      · rw [hpair.1, hpair.2]
        exact iff_of_true (hrepl.self.2 trivial) (.inr ⟨rfl, rfl⟩)
      · rw [hrepl.others s x hpair, or_iff_left hpair]
    refine ⟨⟨.inr hrepl.outside, fun s x hrow => ?_⟩, .inr hhld⟩
    rcases (hhld s x).1 hrow with hrow | ⟨rfl, -⟩
    · exact h.mem_of_holds s x hrow
    · exact hkey

/-- A deletion removes the row id, unless it finds it deep in a gate. -/
theorem delete (h : HasShape layout K tree) (hK : KeySet K) (hkey : key ∈ K)
    (hdeep : (Operation.delete key rowId).deletesDeepPair tree = false) :
    ∃ tree', (Operation.delete key rowId).apply layout tree = some tree' ∧ HasShape layout K tree' ∧
      ∀ s x, Holds tree' s x ↔ Holds tree s x ∧ ¬ (s = key ∧ x = rowId) := by
  have hend : ∀ tree', Shape layout .thresholds tree' →
      (∀ s x, Holds tree' s x ↔ Holds tree s x ∧ ¬ (s = key ∧ x = rowId)) →
      HasShape layout K tree' ∧ ∀ s x, Holds tree' s x ↔ Holds tree s x ∧ ¬ (s = key ∧ x = rowId) :=
    fun tree' hshp hhld => ⟨⟨hshp, fun s x hrow => h.mem_of_holds s x ((hhld s x).1 hrow).1⟩, hhld⟩
  have hemp := not_holds_empty
  rcases h.shape with rfl | hout
  · exact ⟨.empty, rfl, hend _ (.inl rfl) fun s x => iff_of_false (hemp s x) fun h => hemp s x h.1⟩
  · rw [Operation.deletesDeepPair, any_eq_false] at hdeep
    obtain ⟨tree', hdel, hdels⟩ := @deleteLoop_outside layout [] key [] rowId false tree key tree
      ⟨⟨.empty, []⟩, ⟨.empty, []⟩, ⟨tree, []⟩, 0, 0⟩ false false (.root hout) rfl (hK.ne_nil key hkey)
      ⟨fun _ _ => ⟨rfl, rfl, rfl, rfl⟩, fun _ h => absurd h noConfusion, fun h => absurd h noConfusion⟩ rfl
      (fun leaf hlf => hK.prefixFree _ (h.mem_of_mem_leaves hlf) key hkey)
      (fun leaf hlf heq => by
        have hnot := hdeep leaf hlf
        rw [heq, decide_eq_true rfl, Bool.true_and] at hnot
        exact Bool.eq_false_of_not_eq_true hnot)
    refine ⟨tree', hdel, ?_⟩
    rcases hdels with hrepl | ⟨rfl, hall⟩
    · refine hend _ (.inr hrepl.outside) fun s x => ?_
      by_cases hpair : s = key ∧ x = rowId
      · rw [hpair.1, hpair.2]
        exact iff_of_false (fun hrow => hrepl.self.1 hrow) fun h => h.2 ⟨rfl, rfl⟩
      · rw [hrepl.others s x hpair, and_iff_left hpair]
    · exact hend _ (.inl rfl) fun s x => iff_of_false (hemp s x) fun h => h.2 ((hall s x).1 h.1)

end HasShape

/-- An index has its shape in every run in which no deletion removes a `Node4` deep in a gate. -/
theorem shape_of_reachable {K : Set (List UInt8)} (hK : KeySet K) {tree : Node}
    (h : Reachable (· = .empty) (Step layout K fun op tree => op.deletesDeepPair tree = false) tree) :
    Shape layout .thresholds tree := by
  have hstep : ∀ tree tree', HasShape layout K tree →
      Step layout K (fun op tree => op.deletesDeepPair tree = false) tree tree' → HasShape layout K tree' := by
    rintro tree tree' htree ⟨op, hop, hdeep, happly⟩
    cases op with
    | insert info key rowId =>
      obtain ⟨new, hnew, hshp, -⟩ := htree.insert hK hop.1 hop.2.1 hop.2.2
      exact Option.some.inj (hnew.symm.trans happly) ▸ hshp
    | delete key rowId =>
      obtain ⟨new, hnew, hshp, -⟩ := htree.delete hK hop hdeep
      exact Option.some.inj (hnew.symm.trans happly) ▸ hshp
  have hshp : HasShape layout K tree :=
    h.invariant (fun _ hemp => hemp ▸ .empty layout K) fun tree tree' _ => hstep tree tree'
  exact hshp.shape

/-! ## A deletion deep in a gate -/

/-- Whether an inlined row id is the child of a prefix. -/
def prefixesInlined : Node → Bool
  | .prefixNode _ _ child => child.isInlined || prefixesInlined child
  | .inner _ _ keys children => keys.any fun byte => prefixesInlined (children byte)
  | _ => false

theorem InGate.not_prefixesInlined {sizes : Sizes} {root : Bool} {path : List UInt8}
    (h : InGate layout sizes node root path) : prefixesInlined node = false := by
  induction node generalizing root path with
  | prefixNode gate data child ih => rw [prefixesInlined, h.2.2.2.2.1, Bool.false_or, ih h.2.2.2.2.2]
  | inner gate type keys children ih =>
    rw [prefixesInlined, any_eq_false]
    intro byte hby
    rw [ih byte (h.2.2.2 byte hby)]
    exact false_ne_true
  | _ => rfl

instance (node : Node) (suffix : List UInt8) (rowId : RowId) : Decidable (Holds node suffix rowId) :=
  inferInstanceAs (Decidable (∃ leaf ∈ leaves node, leaf.1 = suffix ∧ rowId ∈ gateRows leaf.2 []))

/-- The tree that an operation leaves, if it does not fail. -/
def Operation.applyD (layout : Layout) (tree : Node) (op : Operation) : Node := (op.apply layout tree).getD .empty

theorem Operation.apply_eq_applyD (h : (op.apply layout tree).isSome = true) :
    op.apply layout tree = some (op.applyD layout tree) := by
  obtain ⟨tree', htree'⟩ := Option.isSome_iff_exists.1 h
  rw [applyD, htree']
  rfl

/-- Prefix nodes of seven bytes. -/
def sevenBytes : Layout := ⟨7, le_rfl⟩

theorem keySet_one : KeySet {[1]} := by
  refine ⟨fun key hkey => ?_, fun key hkey key' hkey' => ?_⟩
  · rw [Set.mem_singleton_iff.1 hkey]
    exact cons_ne_nil _ _
  · rw [Set.mem_singleton_iff.1 hkey, Set.mem_singleton_iff.1 hkey']
    exact .of_length_eq rfl

/-- Whether an operation is one on the key `[1]` of an index that is not unique, and does not fail. -/
def Operation.onOne (tree : Node) (op : Operation) : Bool := (op.apply sevenBytes tree).isSome && match op with
    | .insert info key rowId => !info.unique && key = [1] && !decide (Holds tree key rowId)
    | .delete key _ => key = [1]

theorem Operation.step_of_onOne (h : op.onOne tree = true)
    {allowed : Operation → Node → Prop} (hallowed : allowed op tree) :
    Step sevenBytes {[1]} allowed tree (op.applyD sevenBytes tree) := by
  obtain ⟨hsome, hop⟩ := and_eq_true_iff.1 h
  refine ⟨op, ?_, hallowed, apply_eq_applyD hsome⟩
  cases op with
  | insert info key rowId =>
    simp only [Bool.and_eq_true, not_eq_true', decide_eq_true_eq, decide_eq_false_iff_not] at hop
    exact ⟨hop.1.2, fun h => absurd h (by rw [hop.1.1]; exact false_ne_true), hop.2⟩
  | delete key rowId => exact of_decide_eq_true (p := key = [1]) hop

/-- Three row ids of a key: the first two have six bytes in common, and the third one five. -/
def insertsThree : List Operation := [.insert ⟨false, none, .default⟩ [1] 0, .insert ⟨false, none, .default⟩ [1] 256,
    .insert ⟨false, none, .default⟩ [1] 65536]

/-- With the third one deleted, the index has its shape. -/
theorem shape_of_reachable_insertsThree : Shape sevenBytes .thresholds
    ((insertsThree ++ [Operation.delete [1] 65536]).foldl (Operation.applyD sevenBytes) .empty) := by
  refine shape_of_reachable keySet_one (@Reachable.foldl Node (· = .empty) _ Operation (Operation.applyD sevenBytes)
    (fun tree op => op.onOne tree && !op.deletesDeepPair tree) (fun _ _ h => ?_) .empty (.start rfl) _
    (by decide +kernel))
  obtain ⟨hone, hdeep⟩ := and_eq_true_iff.1 h
  rw [not_eq_true'] at hdeep
  exact Operation.step_of_onOne hone hdeep

/-- The second one is deleted again. -/
def deletesSecond : List Operation := insertsThree ++ [.delete [1] 256]

/-- The first one has a prefix inside the gate then. -/
theorem not_shape_of_reachable : ¬ ∀ (layout : Layout) (K : Set (List UInt8)) (tree : Node), KeySet K →
    Reachable (· = .empty) (Step layout K fun _ _ => True) tree → Shape layout .rules tree := by
  intro hall
  have hreach : Reachable (· = .empty) (Step sevenBytes {[1]} fun _ _ => True)
      (deletesSecond.foldl (Operation.applyD sevenBytes) .empty) :=
    @Reachable.foldl Node (· = .empty) _ Operation (Operation.applyD sevenBytes) Operation.onOne
      (fun _ _ h => Operation.step_of_onOne h trivial) .empty (.start rfl) deletesSecond (by decide +kernel)
  have hgate : ((leaves (deletesSecond.foldl (Operation.applyD sevenBytes) .empty)).any
      fun leaf => leaf.2.gate && prefixesInlined leaf.2) = true := by decide +kernel
  obtain ⟨leaf, hlf, hbad⟩ := any_eq_true.1 hgate
  obtain ⟨hbit, hbad⟩ := and_eq_true_iff.1 hbad
  rcases hall _ _ _ keySet_one hreach with hemp | hout
  · rw [hemp] at hlf
    exact absurd hlf not_mem_nil
  · rcases isInlined_or_gate_of_mem_leaves hout hlf with hinl | ⟨-, hshp⟩
    · cases hnode : leaf.2 with
      | inlined rowId =>
        rw [hnode] at hbit
        exact absurd hbit noConfusion
      | _ => exact absurd (hnode ▸ hinl) noConfusion
    · rw [hshp.1.not_prefixesInlined] at hbad
      exact absurd hbad noConfusion

/-! ## Row ids occur once -/

section

variable {sizes : Sizes}

theorem InGate.nodup_gateRows {node : Node} {root : Bool} {path : List UInt8} (h : InGate layout sizes node root path) :
    (gateRows node path).Nodup := by
  induction node generalizing root path with
  | empty => exact nodup_nil
  | inlined rowId => exact nodup_singleton _
  | prefixNode gate data child ih => exact ih h.2.2.2.2.2
  | inner gate type keys children ih =>
    refine nodup_flatMap.2 ⟨fun byte hby => ih byte (h.2.2.2 byte hby), ?_⟩
    refine List.Pairwise.imp_of_mem (fun {byte byte'} hby hby' hne => ?_) h.2.2.1.nodup
    intro rowId hmem hmem'
    exact hne (eq_of_concat ((h.2.2.2 byte hby).prefix_of_mem hmem) ((h.2.2.2 byte' hby').prefix_of_mem hmem'))
  | leafNode gate type bytes =>
    refine h.2.2.2.nodup.map fun byte byte' heq => ?_
    have hkey : ∀ b, rowIdKey (getRowId (path ++ [b])) = path ++ [b] := fun b => by
      rw [rowIdKey_getRowId]
      rw [length_append, h.2.2.1, length_singleton]
    have hpaths := congrArg rowIdKey heq
    rw [hkey, hkey] at hpaths
    exact (cons.inj (append_cancel_left hpaths)).1

/-- A row id that occurs once in the tree occurs once in the lists of row ids. -/
theorem nodup_entries (h : Shape layout sizes tree)
    (huniq : ∀ key key' rowId, Holds tree key rowId → Holds tree key' rowId → key = key') :
    ((entries tree).flatMap Prod.snd).Nodup := by
  rcases h with rfl | hout
  · exact nodup_nil
  · rw [entries, flatMap_map]
    refine nodup_flatMap.2 ⟨fun leaf hlf => ?_, ?_⟩
    · rcases isInlined_or_gate_of_mem_leaves hout hlf with hinl | ⟨-, hgate⟩
      · cases hnode : leaf.2 with
        | inlined rowId => exact nodup_singleton _
        | _ => exact absurd (hnode ▸ hinl) noConfusion
      · exact hgate.1.nodup_gateRows
    · refine List.Pairwise.imp_of_mem (fun {leaf leaf'} hlf hlf' hlt => ?_) (pairwise_leaves hout)
      intro rowId hmem hmem'
      exact hlt.1.ne (huniq _ _ rowId ⟨leaf, hlf, rfl, hmem⟩ ⟨leaf', hlf', rfl, hmem'⟩)

end

theorem mem_rowsWhere : rowId ∈ rowsWhere tree (· = key) ↔ Holds tree key rowId := by
  rw [rowsWhere_eq, mem_flatMap]
  constructor
  · rintro ⟨leaf, hlf, hmem⟩
    split_ifs at hmem with hkey
    · exact ⟨leaf, hlf, hkey, hmem⟩
    · exact absurd hmem not_mem_nil
  · rintro ⟨leaf, hlf, hkey, hmem⟩
    exact ⟨leaf, hlf, by rwa [if_pos hkey]⟩

/-! ## Fewer children -/

theorem Fits.mono {least least' most : ℕ} {keys : List UInt8} (h : Fits least most keys) (hle : least' ≤ least) :
    Fits least' most keys :=
  ⟨h.sorted, hle.trans h.least_le, h.le_most⟩

theorem InGate.rules {root : Bool} {path : List UInt8} (h : InGate layout .thresholds node root path) :
    InGate layout .rules node root path := by
  induction node generalizing root path with
  | empty => exact h
  | inlined rowId => exact h
  | prefixNode gate data child ih =>
    exact ⟨h.1, h.2.1, h.2.2.1, h.2.2.2.1, h.2.2.2.2.1, ih h.2.2.2.2.2⟩
  | inner gate type keys children ih =>
    exact ⟨h.1, h.2.1, h.2.2.1.mono (by cases type <;> decide), fun byte hby => ih byte (h.2.2.2 byte hby)⟩
  | leafNode gate type bytes => exact ⟨h.1, h.2.1, h.2.2.1, h.2.2.2.mono (by cases type <;> decide)⟩

theorem GateShape.rules (h : GateShape layout .thresholds node) : GateShape layout .rules node := ⟨h.1.rules, h.2⟩

theorem Outside.rules (h : Outside layout .thresholds node) : Outside layout .rules node := by
  induction node with
  | empty => exact h
  | inlined rowId => exact h
  | leafNode gate type bytes => exact h
  | prefixNode gate data child ih =>
    cases gate with
    | true => exact GateShape.rules h
    | false => exact ⟨h.1, h.2.1, h.2.2.1, ih h.2.2.2⟩
  | inner gate type keys children ih =>
    cases gate with
    | true => exact GateShape.rules h
    | false => exact ⟨h.1.mono (by cases type <;> decide), fun byte hby => ih byte (h.2 byte hby)⟩

theorem Shape.rules (h : Shape layout .thresholds tree) : Shape layout .rules tree :=
  h.imp_right Outside.rules

/-! ## The pairs of an index -/

/-- An index that is not unique, with the pairs that have been inserted and not been deleted since. -/
structure Index where
  tree : Node
  pairs : Finset (List UInt8 × RowId)

/-- The row ids that have been inserted for a key and not been deleted since. -/
def Index.rows (i : Index) (key : List UInt8) : Finset RowId := (i.pairs.filter (·.1 = key)).image Prod.snd

theorem Index.mem_rows {i : Index} : rowId ∈ i.rows key ↔ (key, rowId) ∈ i.pairs := by
  simp [rows]

namespace Operation

/-- What an operation does to the pairs. -/
def applyPairs : Operation → Finset (List UInt8 × RowId) → Finset (List UInt8 × RowId)
  | .insert _ key rowId, pairs => pairs ∪ {(key, rowId)}
  | .delete key rowId, pairs => pairs.erase (key, rowId)

/-- The keys are from a set of keys, and a row id is not inserted while it is in the index. -/
def Fresh (K : Set (List UInt8)) : Operation → Finset (List UInt8 × RowId) → Prop
  | .insert info key rowId, pairs => info.unique = false ∧ key ∈ K ∧ ∀ k, (k, rowId) ∉ pairs
  | .delete key _, _ => key ∈ K

end Operation

/-- A step of an index that is not unique. -/
def IndexStep (layout : Layout) (K : Set (List UInt8)) (allowed : Operation → Node → Prop) (i i' : Index) : Prop :=
  ∃ op : Operation, op.Fresh K i.pairs ∧ allowed op i.tree ∧ op.apply layout i.tree = some i'.tree ∧
    i'.pairs = op.applyPairs i.pairs

/-- The tree of an index holds its pairs. -/
structure Index.Inv (layout : Layout) (K : Set (List UInt8)) (i : Index) : Prop where
  shape : HasShape layout K i.tree
  holds : ∀ key rowId, Holds i.tree key rowId ↔ (key, rowId) ∈ i.pairs
  unique : ∀ key key' rowId, (key, rowId) ∈ i.pairs → (key', rowId) ∈ i.pairs → key = key'

namespace Index.Inv

variable {K : Set (List UInt8)} {i : Index}

theorem empty (layout : Layout) (K : Set (List UInt8)) : Index.Inv layout K ⟨.empty, ∅⟩ :=
  ⟨.empty layout K, fun key rowId => iff_of_false (not_holds_empty key rowId) (notMem_empty _),
    fun _ _ _ h => absurd h (notMem_empty _)⟩

/-- No operation fails, unless it deletes a row id deep in a gate. -/
theorem step (h : i.Inv layout K) (hK : KeySet K) (hop : op.Fresh K i.pairs)
    (hdeep : op.deletesDeepPair i.tree = false) :
    ∃ tree', op.apply layout i.tree = some tree' ∧ Index.Inv layout K ⟨tree', op.applyPairs i.pairs⟩ := by
  cases op with
  | insert info key rowId =>
    obtain ⟨huniq, hkey, hfr⟩ := hop
    obtain ⟨tree', happly, hshp, hhld⟩ := h.shape.insert hK hkey
      (fun h => absurd h (by rw [huniq]; exact false_ne_true)) fun hrow => hfr key ((h.holds key rowId).1 hrow)
    have hhld := hhld.resolve_left fun h => absurd h.1 (by rw [huniq]; exact false_ne_true)
    refine ⟨tree', happly, hshp, fun s x => ?_, fun s s' x hs hs' => ?_⟩
    · rw [hhld, h.holds, Operation.applyPairs, Finset.mem_union, Finset.mem_singleton, Prod.mk.injEq]
    · simp only [Operation.applyPairs, Finset.mem_union, Finset.mem_singleton] at hs hs'
      rcases hs with hs | ⟨rfl, rfl⟩
      · rcases hs' with hs' | ⟨rfl, rfl⟩
        · exact h.unique s s' x hs hs'
        · exact absurd hs (hfr s)
      · rcases hs' with hs' | ⟨rfl, -⟩
        · exact absurd hs' (hfr s')
        · rfl
  | delete key rowId =>
    obtain ⟨tree', happly, hshp, hhld⟩ := h.shape.delete hK hop hdeep
    refine ⟨tree', happly, hshp, fun s x => ?_, fun s s' x hs hs' => ?_⟩
    · rw [hhld, h.holds, Operation.applyPairs, Finset.mem_erase, Ne, Prod.mk.injEq, and_comm]
    · exact h.unique s s' x (Finset.mem_of_mem_erase hs) (Finset.mem_of_mem_erase hs')

theorem finds (h : i.Inv layout K) (hK : KeySet K) (hkey : ∀ k ∈ K, PrefixFree k key) (maxCount : ℕ) :
    ∃ found out, searchEqual i.tree key maxCount ∅ = some (found, out) ∧
      (found = true ↔ (i.rows key).card ≤ maxCount) ∧ (found = true → out = i.rows key) := by
  have hnd : ((entries i.tree).flatMap Prod.snd).Nodup := nodup_entries h.shape.shape fun key key' rowId hrow hrow' =>
    h.unique key key' rowId ((h.holds _ _).1 hrow) ((h.holds _ _).1 hrow')
  have hent : ∀ e ∈ entries i.tree, e.1 ∈ K := by
    intro e he
    obtain ⟨leaf, hlf, rfl⟩ := mem_map.1 he
    exact h.shape.mem_of_mem_leaves hlf
  have hidx : IsIndex layout i.tree := ⟨h.shape.shape.rules, fun e he => hK.ne_nil _ (hent e he), hnd⟩
  obtain ⟨found, out, hsrch, hfnd, hout⟩ := hidx.searchEqual_finds (fun e he => hkey _ (hent e he)) maxCount
  have hrs : (rowsWhere i.tree (· = key)).toFinset = i.rows key := by
    ext rowId
    rw [mem_toFinset, mem_rowsWhere, h.holds, Index.mem_rows]
  have hnd' : (rowsWhere i.tree (· = key)).Nodup := (filter_sublist.flatMap Prod.snd).nodup hnd
  rw [hrs] at hout
  rw [← toFinset_card_of_nodup hnd', hrs] at hfnd
  exact ⟨found, out, hsrch, hfnd, hout⟩

/-- A key without row ids is not found. -/
theorem lookup_eq_none (h : i.Inv layout K) (hkey : ∀ k ∈ K, PrefixFree k key)
    (hrs : i.rows key = ∅) : lookup key i.tree 0 = some none := by
  rcases h.shape.shape with hemp | hout
  · rw [hemp]
    rfl
  · rcases @lookup_spec layout .thresholds key i.tree [] hout nil_prefix
      (fun leaf hlf => hkey _ (h.shape.mem_of_mem_leaves hlf)) with ⟨leaf, hlf, heq, -⟩ | ⟨-, hlook⟩
    · obtain ⟨rowId, hrow⟩ := exists_mem_gateRows hout hlf
      have hmem := Index.mem_rows.2 ((h.holds _ _).1 hrow)
      rw [show leaf.1 = key from heq, hrs] at hmem
      exact absurd hmem (notMem_empty _)
    · exact hlook

end Index.Inv

/-- No operation fails, and a search finds the row ids that have been inserted for a key and not deleted since. -/
def Index.Behaves (layout : Layout) (K : Set (List UInt8)) (allowed : Operation → Node → Prop) (i : Index) : Prop :=
  (∀ op : Operation, op.Fresh K i.pairs → allowed op i.tree → (op.apply layout i.tree).isSome) ∧
    ∀ key, (∀ k ∈ K, PrefixFree k key) →
      (∀ maxCount, ∃ found out, searchEqual i.tree key maxCount ∅ = some (found, out) ∧
        (found = true ↔ (i.rows key).card ≤ maxCount) ∧ (found = true → out = i.rows key)) ∧
      (i.rows key = ∅ → lookup key i.tree 0 = some none)

/-- An index is a set of pairs in every run in which no deletion removes a `Node4` deep in a gate. -/
theorem behaves_of_reachable {K : Set (List UInt8)} (hK : KeySet K) {i : Index}
    (h : Reachable (· = ⟨.empty, ∅⟩) (IndexStep layout K fun op tree => op.deletesDeepPair tree = false) i) :
    i.Behaves layout K fun op tree => op.deletesDeepPair tree = false := by
  have hstep : ∀ i i', i.Inv layout K →
      IndexStep layout K (fun op tree => op.deletesDeepPair tree = false) i i' → i'.Inv layout K := by
    rintro i ⟨tree', pairs'⟩ hi ⟨op, hop, hdeep, happly, rfl⟩
    obtain ⟨new, hnew, hinv⟩ := hi.step hK hop hdeep
    obtain rfl : new = tree' := Option.some.inj (hnew.symm.trans happly)
    exact hinv
  have hinv : i.Inv layout K := h.invariant (fun _ hemp => hemp ▸ .empty layout K) fun i i' _ => hstep i i'
  refine ⟨fun op hop hdeep => ?_, fun key hkey => ⟨hinv.finds hK hkey, hinv.lookup_eq_none hkey⟩⟩
  obtain ⟨tree', happly, -⟩ := hinv.step hK hop hdeep
  rw [happly]
  rfl

/-- The index that an operation leaves, if it does not fail. -/
def Index.applyD (layout : Layout) (i : Index) (op : Operation) : Index :=
  ⟨op.applyD layout i.tree, op.applyPairs i.pairs⟩

/-- Whether an operation is one on the key `[1]` of an index that is not unique, and does not fail. -/
def Index.onOne (i : Index) (op : Operation) : Bool := (op.apply sevenBytes i.tree).isSome && match op with
    | .insert info key rowId => !info.unique && key = [1] && decide (rowId ∉ i.pairs.image Prod.snd)
    | .delete key _ => key = [1]

theorem Index.step_of_onOne {i : Index} (h : i.onOne op = true)
    {allowed : Operation → Node → Prop} (hallowed : allowed op i.tree) :
    IndexStep sevenBytes {[1]} allowed i (i.applyD sevenBytes op) := by
  obtain ⟨hsome, hop⟩ := and_eq_true_iff.1 h
  refine ⟨op, ?_, hallowed, Operation.apply_eq_applyD hsome, rfl⟩
  cases op with
  | insert info key rowId =>
    simp only [Bool.and_eq_true, not_eq_true', decide_eq_true_eq] at hop
    exact ⟨hop.1.1, hop.1.2, fun k hk => hop.2 (mem_image_of_mem Prod.snd hk)⟩
  | delete key rowId => exact of_decide_eq_true (p := key = [1]) hop

theorem behaves_of_reachable_insertsThree :
    ((insertsThree ++ [Operation.delete [1] 65536]).foldl (Index.applyD sevenBytes) ⟨.empty, ∅⟩).Behaves sevenBytes {[1]}
      fun op tree => op.deletesDeepPair tree = false := by
  refine behaves_of_reachable keySet_one (@Reachable.foldl Index (· = ⟨.empty, ∅⟩) _ Operation (Index.applyD sevenBytes)
    (fun i op => i.onOne op && !op.deletesDeepPair i.tree) (fun _ _ h => ?_) ⟨.empty, ∅⟩ (.start rfl) _
    (by decide +kernel))
  obtain ⟨hone, hdeep⟩ := and_eq_true_iff.1 h
  rw [not_eq_true'] at hdeep
  exact Index.step_of_onOne hone hdeep

/-- All row ids are deleted: a prefix without a child is left. -/
def deletesAll : List Operation := deletesSecond ++ [.delete [1] 65536, .delete [1] 0]

/-- The next insertion fails. -/
theorem not_behaves_of_reachable : ¬ ∀ (layout : Layout) (K : Set (List UInt8)) (i : Index), KeySet K →
    Reachable (· = ⟨.empty, ∅⟩) (IndexStep layout K fun _ _ => True) i → i.Behaves layout K fun _ _ => True := by
  intro hall
  have hreach : Reachable (· = ⟨.empty, ∅⟩) (IndexStep sevenBytes {[1]} fun _ _ => True)
      (deletesAll.foldl (Index.applyD sevenBytes) ⟨.empty, ∅⟩) :=
    @Reachable.foldl Index (· = ⟨.empty, ∅⟩) _ Operation (Index.applyD sevenBytes) Index.onOne
      (fun _ _ h => Index.step_of_onOne h trivial) ⟨.empty, ∅⟩ (.start rfl) deletesAll (by decide +kernel)
  have hpairs : (deletesAll.foldl (Index.applyD sevenBytes) ⟨.empty, ∅⟩).pairs = ∅ := by decide
  have hfails : ((Operation.insert ⟨false, none, .default⟩ [1] 5).apply sevenBytes
      (deletesAll.foldl (Index.applyD sevenBytes) ⟨.empty, ∅⟩).tree).isSome = false := by decide +kernel
  have hsome := (hall _ _ _ keySet_one hreach).1 (.insert ⟨false, none, .default⟩ [1] 5)
    ⟨rfl, rfl, fun k => hpairs ▸ notMem_empty _⟩ trivial
  rw [hfails] at hsome
  exact absurd hsome noConfusion

end Art

end WfOpt

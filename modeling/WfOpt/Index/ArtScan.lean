import WfOpt.Index.ArtIterator
import WfOpt.Index.ArtShape

/-!
# Range scans of an adaptive radix tree

The iterator visits the leaves of a tree from the left to the right. Where it is (`Position`) is told by the bytes of
the key on the path and, inside a gate, those of the row id. The nodes on its stack stand for what is still to be
visited (`Stack`): the children of each node behind the byte that it went down at.
-/

namespace WfOpt

open List

namespace Art

/-! ## Lists in ascending order -/

/-- The first byte that a rising condition holds for, and those behind it. -/
theorem find?_eq_head_of_sorted {keys : List UInt8} (hsort : keys.Pairwise (· < ·)) {P : UInt8 → Bool}
    (hP : ∀ x y, x < y → P x → P y) :
    match keys.find? P with
    | none => keys.filter P = []
    | some byte => byte ∈ keys ∧ P byte ∧ keys.filter P = byte :: keys.filter (byte < ·) := by
  induction keys with
  | nil => rfl
  | cons x keys ih =>
    obtain ⟨hx, hsort⟩ := pairwise_cons.1 hsort
    by_cases h : P x
    · rw [find?_cons_of_pos h]
      refine ⟨mem_cons_self, h, ?_⟩
      rw [filter_cons_of_pos h, filter_cons_of_neg (by simp), filter_eq_self.2 fun y hy => hP x y (hx y hy) h,
        filter_eq_self.2 fun y hy => decide_eq_true (hx y hy)]
    · rw [find?_cons_of_neg h]
      have hrst := ih hsort
      cases hfind : keys.find? P with
      | none =>
        rw [hfind] at hrst
        exact (filter_cons_of_neg h).trans hrst
      | some byte =>
        rw [hfind] at hrst
        obtain ⟨hmem, hby, hfilt⟩ := hrst
        refine ⟨mem_cons_of_mem _ hmem, hby, ?_⟩
        rw [filter_cons_of_neg h, hfilt, filter_cons_of_neg (by simpa using (hx byte hmem).le)]

/-- Only those elements matter that do not yield nothing. -/
theorem flatMap_filter_of_nil {α β : Type*} {l : List α} {f : α → List β} {Q : α → Bool}
    (h : ∀ x ∈ l, ¬ Q x → f x = []) : (l.filter Q).flatMap f = l.flatMap f := by
  induction l with
  | nil => rfl
  | cons x l ih =>
    have hrst := ih fun y hy => h y (mem_cons_of_mem _ hy)
    by_cases hx : Q x
    · rw [filter_cons_of_pos hx, flatMap_cons, flatMap_cons, hrst]
    · rw [filter_cons_of_neg hx, flatMap_cons, h x mem_cons_self hx, nil_append, hrst]

/-! ## Positions -/

/-- Where a node is in a tree: the bytes of the key, and inside a gate those of the row id. -/
structure Position where
  key : List UInt8
  nested : Option (List UInt8)

namespace Position

/-- The bytes of the row id. -/
def rowPath (p : Position) : List UInt8 := p.nested.getD []

/-- All bytes on the path. -/
def path (p : Position) : List UInt8 := p.key ++ p.rowPath

/-- Behind a node that may be a gate. -/
def enter (p : Position) (gate : Bool) : Position := if gate then ⟨p.key, some []⟩ else p

/-- Behind some more bytes. -/
def push (p : Position) (bytes : List UInt8) : Position := match p.nested with
  | none => ⟨p.key ++ bytes, none⟩
  | some path => ⟨p.key, some (path ++ bytes)⟩

/-- The position of the child of a node, behind its bytes. -/
def down (p : Position) (gate : Bool) (bytes : List UInt8) : Position := (p.enter gate).push bytes

variable {p : Position} {gate : Bool}

section

variable (p : Position)

theorem push_nil : p.push [] = p := by
  obtain ⟨key, _ | path⟩ := p <;> simp [push]

theorem push_append (bytes bytes' : List UInt8) :
    p.push (bytes ++ bytes') = (p.push bytes).push bytes' := by
  obtain ⟨key, _ | path⟩ := p <;> simp [push]

theorem path_push (bytes : List UInt8) : (p.push bytes).path = p.path ++ bytes := by
  obtain ⟨key, _ | path⟩ := p <;> simp [push, Position.path, rowPath]

theorem nested_push (bytes : List UInt8) : (p.push bytes).nested = p.nested.map (· ++ bytes) := by
  obtain ⟨key, _ | path⟩ := p <;> rfl

theorem isSome_nested_push (bytes : List UInt8) : (p.push bytes).nested.isSome = p.nested.isSome := by
  rw [nested_push, Option.isSome_map]

theorem isSome_nested_enter (gate : Bool) :
    (p.enter gate).nested.isSome = (p.nested.isSome || gate) := by
  cases gate <;> simp [enter]

end

theorem path_enter (hgate : gate = true → p.nested = none) : (p.enter gate).path = p.path := by
  cases gate with
  | false => rfl
  | true => simp [enter, path, rowPath, hgate rfl]

theorem path_down (hgate : gate = true → p.nested = none) (bytes : List UInt8) :
    (p.down gate bytes).path = p.path ++ bytes := by
  rw [down, path_push, path_enter hgate]

/-- Inside a gate, the key stays the same. -/
theorem key_push (hnest : p.nested.isSome) (bytes : List UInt8) : (p.push bytes).key = p.key := by
  obtain ⟨key, _ | path⟩ := p
  · exact absurd hnest Bool.false_ne_true
  · rfl

theorem key_down (hnest : p.nested.isSome) (bytes : List UInt8) : (p.down gate bytes).key = p.key := by
  rw [down, key_push (by rw [isSome_nested_enter, hnest, Bool.true_or])]
  cases gate <;> rfl

end Position

/-! ## The nodes at a position -/

section

variable (layout : Layout) (sizes : Sizes)

/-- The shape of a node at a position, behind the first node of a gate. -/
def FitsAt (node : Node) (p : Position) : Prop := match p.nested with
  | none => Outside layout sizes node
  | some path => InGate layout sizes node false path

end

variable {layout : Layout} {sizes : Sizes} {v : Position × Node} {key : List UInt8}

variable {p : Position}

theorem FitsAt.prefixNode {gate : Bool} {data : List UInt8} {child : Node}
    (h : FitsAt layout sizes (.prefixNode gate data child) p) :
    (gate = true → p.nested = none) ∧ FitsAt layout sizes child (p.down gate data) := by
  obtain ⟨key, _ | path⟩ := p
  · refine ⟨fun _ => rfl, ?_⟩
    cases gate with
    | true => exact h.1.2.2.2.2.2
    | false => exact h.2.2.2
  · obtain rfl : gate = false := h.1
    exact ⟨nofun, h.2.2.2.2.2⟩

theorem FitsAt.inner {gate : Bool} {type : NodeType} {keys : List UInt8} {children : UInt8 → Node}
    (h : FitsAt layout sizes (.inner gate type keys children) p) :
    (gate = true → p.nested = none) ∧ Fits (sizes.node type) type.capacity keys ∧
      ∀ byte ∈ keys, FitsAt layout sizes (children byte) (p.down gate [byte]) := by
  obtain ⟨key, _ | path⟩ := p
  · refine ⟨fun _ => rfl, ?_⟩
    cases gate with
    | true => exact h.1.2.2
    | false => exact h
  · obtain rfl : gate = false := h.1
    exact ⟨nofun, h.2.2⟩

theorem FitsAt.leafNode {gate : Bool} {type : LeafType} {bytes : List UInt8}
    (h : FitsAt layout sizes (.leafNode gate type bytes) p) :
    ∃ path, p.nested = some path ∧ path.length = rowIdCount := by
  obtain ⟨key, _ | path⟩ := p
  · exact absurd h not_false
  · exact ⟨path, rfl, h.2.2.1⟩

variable {node : Node}

theorem InGate.length_le {root : Bool} {path : List UInt8}
    (h : InGate layout sizes node root path) : path.length ≤ rowIdCount + 1 := by
  induction node generalizing root path with
  | empty => exact absurd h not_false
  | inlined rowId => exact length_rowIdKey rowId ▸ h.2.length_le
  | prefixNode gate data child ih =>
    refine le_trans ?_ (ih h.2.2.2.2.2)
    rw [length_append]
    exact Nat.le_add_right _ _
  | inner gate type keys children ih => exact h.2.1.le.trans (Nat.le_succ _)
  | leafNode gate type bytes => exact h.2.2.1.le.trans (Nat.le_succ _)

theorem FitsAt.length_le (h : FitsAt layout sizes node p) : p.rowPath.length ≤ rowIdCount + 1 := by
  obtain ⟨key, _ | path⟩ := p
  · exact Nat.zero_le _
  · exact (show InGate layout sizes node false path from h).length_le

/-! ## What is to be visited -/

/-- The leaves at and below a node, with their positions. -/
def visits : Node → Position → List (Position × Node)
  | .empty, _ => []
  | .inlined rowId, p => [(p, .inlined rowId)]
  | .leafNode gate type bytes, p => [(p, .leafNode gate type bytes)]
  | .prefixNode gate data child, p => visits child (p.down gate data)
  | .inner gate _ keys children, p => keys.flatMap fun byte => visits (children byte) (p.down gate [byte])

theorem key_of_mem_visits_nested (hp : p.nested.isSome) (hv : v ∈ visits node p) : v.1.key = p.key ∧ v.1.nested.isSome := by
  have hdown : ∀ gate bytes, (p.down gate bytes).nested.isSome := by
    intro gate bytes
    rw [Position.down, Position.isSome_nested_push, Position.isSome_nested_enter, hp, Bool.true_or]
  induction node generalizing p with
  | empty => exact absurd hv not_mem_nil
  | inlined rowId | leafNode gate type bytes =>
    rw [mem_singleton.1 hv]
    exact ⟨rfl, hp⟩
  | prefixNode gate data child ih =>
    have hch := ih (hdown gate data) hv fun gate' bytes => by
      rw [Position.down, Position.isSome_nested_push, Position.isSome_nested_enter, hdown, Bool.true_or]
    exact ⟨hch.1.trans (Position.key_down hp data), hch.2⟩
  | inner gate type keys children ih =>
    obtain ⟨byte, -, hv⟩ := mem_flatMap.1 hv
    have hch := ih byte (hdown gate [byte]) hv fun gate' bytes => by
      rw [Position.down, Position.isSome_nested_push, Position.isSome_nested_enter, hdown, Bool.true_or]
    exact ⟨hch.1.trans (Position.key_down hp [byte]), hch.2⟩

theorem key_of_mem_visits_leaf {leaf : Node} (hlf : leaf.isInlined ∨ leaf.gate)
    (hv : v ∈ visits leaf ⟨key, none⟩) : v.1.key = key := by
  cases leaf with
  | empty => exact absurd hv not_mem_nil
  | inlined rowId | leafNode gate type bytes =>
    rw [mem_singleton.1 hv]
  | prefixNode gate data child =>
    obtain rfl : gate = true := by simpa [Node.isInlined, Node.gate] using hlf
    exact (key_of_mem_visits_nested (p := ⟨key, some data⟩) rfl hv).1
  | inner gate type keys children =>
    obtain rfl : gate = true := by simpa [Node.isInlined, Node.gate] using hlf
    obtain ⟨byte, -, hv⟩ := mem_flatMap.1 hv
    exact (key_of_mem_visits_nested (p := ⟨key, some [byte]⟩) rfl hv).1

theorem visits_eq_flatMap (h : Outside layout sizes node) (key : List UInt8) :
    visits node ⟨key, none⟩ = (leaves node).flatMap fun leaf => visits leaf.2 ⟨key ++ leaf.1, none⟩ := by
  induction node generalizing key with
  | empty => exact absurd h not_false
  | inlined rowId => simp [leaves]
  | leafNode gate type bytes => exact absurd h not_false
  | prefixNode gate data child ih =>
    cases gate with
    | true => simp [leaves]
    | false =>
      rw [leaves, if_neg Bool.false_ne_true, flatMap_map]
      refine (ih h.2.2.2 (key ++ data)).trans ?_
      simp only [append_assoc]
  | inner gate type keys children ih =>
    cases gate with
    | true => simp [leaves]
    | false =>
      rw [leaves, if_neg Bool.false_ne_true, flatMap_assoc, visits]
      refine flatMap_congr fun byte hby => ?_
      rw [flatMap_map]
      refine (ih byte (h.2 byte hby) (key ++ [byte])).trans ?_
      simp only [append_assoc, singleton_append]

theorem exists_key_of_mem_visits (h : Outside layout sizes node) (hv : v ∈ visits node ⟨key, none⟩) :
    ∃ leaf ∈ leaves node, v.1.key = key ++ leaf.1 := by
  rw [visits_eq_flatMap h] at hv
  obtain ⟨leaf, hlf, hv⟩ := mem_flatMap.1 hv
  refine ⟨leaf, hlf, key_of_mem_visits_leaf ?_ hv⟩
  exact (isInlined_or_gate_of_mem_leaves h hlf).imp_right And.left

section

variable (layout sizes)

/-- The leaves that are to be visited behind the position that the nodes of a stack lead to. -/
inductive Stack : List (Node × UInt8) → Position → List (Position × Node) → Prop
  | nil {p : Position} (h : p.nested = none) : Stack [] p []
  | prefixNode {nodes : List (Node × UInt8)} {p : Position} {vs : List (Position × Node)} {gate : Bool}
      {data : List UInt8} {child : Node} {byte : UInt8} (hgate : gate = true → p.nested = none)
      (h : Stack nodes p vs) :
      Stack ((.prefixNode gate data child, byte) :: nodes) (p.down gate data) vs
  | inner {nodes : List (Node × UInt8)} {p : Position} {vs : List (Position × Node)} {gate : Bool}
      {type : NodeType} {keys : List UInt8} {children : UInt8 → Node} {byte : UInt8}
      (hfits : FitsAt layout sizes (.inner gate type keys children) p) (h : Stack nodes p vs) :
      Stack ((.inner gate type keys children, byte) :: nodes) (p.down gate [byte])
        ((keys.filter (byte < ·)).flatMap (fun b => visits (children b) (p.down gate [b])) ++ vs)

end

namespace Iterator

/-- The bytes of an iterator are those of a position. -/
structure At (it : Iterator) (p : Position) : Prop where
  currentKey : it.currentKey = p.path
  status : it.status = p.nested.isSome
  nestedDepth : it.nestedDepth = p.rowPath.length
  rowId_length : it.rowId.length = 8
  rowId : p.rowPath <+: it.rowId

/-- Writing the byte behind the first ones. -/
theorem append_prefix_set {path l : List UInt8} (h : path <+: l) (hlt : path.length < l.length)
    (byte : UInt8) : path ++ [byte] <+: l.set path.length byte := by
  obtain ⟨rest, rfl⟩ := h
  cases rest with
  | nil => simp at hlt
  | cons b rest =>
    refine ⟨rest, ?_⟩
    rw [set_append_right _ _ le_rfl, Nat.sub_self, set_cons_zero, append_assoc, singleton_append]

variable {it : Iterator} {p : Position}

theorem At.push (h : it.At p) (byte : UInt8) (hlen : (p.push [byte]).rowPath.length ≤ rowIdCount + 1) :
    (it.push byte).At (p.push [byte]) := by
  obtain ⟨key, _ | path⟩ := p
  · have hstat : it.status = false := h.status
    rw [Iterator.push, if_neg (by simp [hstat])]
    exact ⟨by rw [Position.path_push, ← h.currentKey], hstat, h.nestedDepth, h.rowId_length, nil_prefix⟩
  · have hstat : it.status = true := h.status
    have hlt : path.length < it.rowId.length := by
      rw [h.rowId_length]
      exact length_append.symm.trans_le hlen
    rw [Iterator.push, if_pos hstat]
    refine ⟨by rw [Position.path_push, ← h.currentKey], hstat, ?_, ?_, ?_⟩
    · change it.nestedDepth + 1 = (path ++ [byte]).length
      rw [h.nestedDepth, length_append]
      rfl
    · exact (length_set).trans h.rowId_length
    · rw [h.nestedDepth]
      exact append_prefix_set h.rowId hlt byte

theorem At.pushAll (h : it.At p) (data : List UInt8) (hlen : (p.push data).rowPath.length ≤ rowIdCount + 1) :
    (data.foldl Iterator.push it).At (p.push data) := by
  induction data generalizing it p with
  | nil => exact (p.push_nil).symm ▸ h
  | cons byte data ih =>
    have happ : p.push (byte :: data) = (p.push [byte]).push data := p.push_append [byte] data
    rw [happ] at hlen ⊢
    refine ih (h.push byte ?_) hlen
    refine le_trans ?_ hlen
    obtain ⟨key, _ | path⟩ := p <;> simp [Position.push, Position.rowPath]

theorem At.passGate (h : it.At p) {gate : Bool}
    (hgate : gate = true → p.nested = none) : (it.passGate gate).At (p.enter gate) := by
  cases gate with
  | false => exact h
  | true =>
    refine ⟨?_, rfl, rfl, h.rowId_length, nil_prefix⟩
    rw [Position.path_enter hgate, ← h.currentKey]
    rfl

section

variable (it : Iterator)

theorem nodes_push (byte : UInt8) : (it.push byte).nodes = it.nodes := by
  rw [Iterator.push]
  split <;> rfl

theorem enteredNestedLeaf_push (byte : UInt8) :
    (it.push byte).enteredNestedLeaf = it.enteredNestedLeaf := by
  rw [Iterator.push]
  split <;> rfl

theorem nodes_pushAll (data : List UInt8) : (data.foldl Iterator.push it).nodes = it.nodes := by
  induction data generalizing it with
  | nil => rfl
  | cons byte data ih => exact (ih _).trans (nodes_push it byte)

theorem enteredNestedLeaf_pushAll (data : List UInt8) :
    (data.foldl Iterator.push it).enteredNestedLeaf = it.enteredNestedLeaf := by
  induction data generalizing it with
  | nil => rfl
  | cons byte data ih => exact (ih _).trans (enteredNestedLeaf_push it byte)

theorem nodes_passGate (gate : Bool) : (it.passGate gate).nodes = it.nodes := by
  cases gate <;> rfl

theorem enteredNestedLeaf_passGate (gate : Bool) :
    (it.passGate gate).enteredNestedLeaf = (it.enteredNestedLeaf || gate) := by
  cases gate <;> simp [passGate]

end

section

variable (layout sizes)

/-- The iterator is at a leaf, and the others are to be visited. -/
structure Visiting (it : Iterator) (v : Position × Node) (vs : List (Position × Node)) : Prop where
  lastLeaf : it.lastLeaf = v.2
  at_ : it.At v.1
  stack : Stack layout sizes it.nodes v.1 vs

end

/-- `enteredNestedLeaf` is set whenever the iterator goes into a gate. -/
def Entered (it : Iterator) (p : Position) (v : Position × Node) : Prop :=
  it.enteredNestedLeaf = true ∨ v.1.nested = none ∨ p.nested.isSome ∧ v.1.key = p.key

theorem Entered.of_child {gate : Bool} {bytes : List UInt8} (hgate : gate = true → p.nested = none)
    (hentd : gate = true → it.enteredNestedLeaf = true) (h : Entered it (p.down gate bytes) v) :
    Entered it p v := by
  rcases h with h | h | ⟨hnest, hkey⟩
  · exact .inl h
  · exact .inr (.inl h)
  · cases gate with
    | true => exact .inl (hentd rfl)
    | false =>
      have hsome : p.nested.isSome := by
        rw [← hnest]
        exact (Position.isSome_nested_push p bytes).symm
      exact .inr (.inr ⟨hsome, by rw [hkey, Position.key_down hsome]⟩)

theorem Entered.self (it : Iterator) (p : Position) (leaf : Node) : Entered it p (p, leaf) := by
  obtain ⟨key, _ | path⟩ := p
  · exact .inr (.inl rfl)
  · exact .inr (.inr ⟨rfl, rfl⟩)

theorem At.emplace (h : it.At p) (node : Node) (byte : UInt8) :
    (it.emplace node byte).At p := ⟨h.1, h.2, h.3, h.4, h.5⟩

section

variable (layout sizes)

/-- The iterator goes from a position to the first leaf to be visited, if there is one. -/
def Moves (result : Option (Bool × Iterator)) (p : Position) : List (Position × Node) → Prop
  | [] => ∃ it', result = some (false, it')
  | v :: vs => ∃ it', result = some (true, it') ∧ Visiting layout sizes it' v vs ∧ Entered it' p v

end

variable {vs : List (Position × Node)}

theorem Moves.of_parent {result : Option (Bool × Iterator)}
    (h : Moves layout sizes result p vs) (gate : Bool) (bytes : List UInt8) :
    Moves layout sizes result (p.down gate bytes) vs := by
  cases vs with
  | nil => exact h
  | cons v vs =>
    obtain ⟨it', heq, hvis, hentd⟩ := h
    refine ⟨it', heq, hvis, ?_⟩
    rcases hentd with h | h | ⟨hnest, hkey⟩
    · exact .inl h
    · exact .inr (.inl h)
    · refine .inr (.inr ⟨?_, by rw [hkey, Position.key_down hnest]⟩)
      rw [Position.down, Position.isSome_nested_push, Position.isSome_nested_enter, hnest, Bool.true_or]

theorem findMinimum_spec {node : Node} (h : FitsAt layout sizes node p) (hat : it.At p) :
    ∃ v rest it', visits node p = v :: rest ∧ findMinimum node it = some it' ∧
      (∀ vs, Stack layout sizes it.nodes p vs → Visiting layout sizes it' v (rest ++ vs)) ∧
      (it.enteredNestedLeaf = true → it'.enteredNestedLeaf = true) ∧ Entered it' p v := by
  induction node generalizing p it with
  | empty =>
    obtain ⟨key, _ | path⟩ := p <;> exact absurd h not_false
  | inlined rowId | leafNode gate type bytes =>
    exact ⟨_, [], _, rfl, rfl, fun vs hvs => ⟨rfl, ⟨hat.1, hat.2, hat.3, hat.4, hat.5⟩, hvs⟩, id, .self _ p _⟩
  | prefixNode gate data child ih =>
    obtain ⟨hgate, hch⟩ := h.prefixNode
    have hat' := ((hat.passGate hgate).pushAll data hch.length_le).emplace (.prefixNode gate data child) 0
    obtain ⟨v, rest, it', hviss, hfind, hvis, hmono, hentd⟩ := ih hch hat'
    have hmono' : (it.enteredNestedLeaf || gate) = true → it'.enteredNestedLeaf = true := by
      intro h
      refine hmono ?_
      rw [← enteredNestedLeaf_passGate] at h
      exact (enteredNestedLeaf_pushAll _ _).trans h
    refine ⟨v, rest, it', hviss, hfind, fun vs hvs => hvis vs ?_, ?_, ?_⟩
    · have hnds : (data.foldl Iterator.push (it.passGate gate)).nodes = it.nodes := by
        rw [nodes_pushAll, nodes_passGate]
      rw [Iterator.emplace, hnds]
      exact .prefixNode hgate hvs
    · exact fun h => hmono' (Bool.or_eq_true_iff.2 (.inl h))
    · exact hentd.of_child hgate fun h => hmono' (Bool.or_eq_true_iff.2 (.inr h))
  | inner gate type keys children ih =>
    obtain ⟨hgate, hfits, hchs⟩ := h.inner
    -- The first byte is the first one not less than zero.
    have hfst := find?_eq_head_of_sorted hfits.sorted (P := (0 ≤ ·)) (fun x y _ _ => by simp)
    have hall : keys.filter (0 ≤ ·) = keys := filter_eq_self.2 fun x _ => by simp
    rw [hall] at hfst
    cases hfind : keys.find? (0 ≤ ·) with
    | none =>
      rw [hfind] at hfst
      exact absurd hfst (hfits.ne_nil (sizes.node_pos type))
    | some byte =>
      rw [hfind] at hfst
      obtain ⟨hmem, -, hkeys⟩ := hfst
      have hch := hchs byte hmem
      have hat' := ((hat.passGate hgate).push byte hch.length_le).emplace
        (.inner gate type keys children) byte
      obtain ⟨v, rest, it', hviss, hfind', hvis, hmono, hentd⟩ := ih byte hch hat'
      have hmono' : (it.enteredNestedLeaf || gate) = true → it'.enteredNestedLeaf = true := by
        intro h
        refine hmono ?_
        rw [← enteredNestedLeaf_passGate] at h
        exact (enteredNestedLeaf_push _ _).trans h
      refine ⟨v, rest ++ (keys.filter (byte < ·)).flatMap fun b => visits (children b) (p.down gate [b]),
        it', ?_, ?_, fun vs hvs => ?_, ?_, ?_⟩
      · rw [visits, hkeys, flatMap_cons, hviss, cons_append, ← hkeys]
      · rw [findMinimum, hfind]
        exact hfind'
      · rw [append_assoc]
        refine hvis _ ?_
        have hnds : ((it.passGate gate).push byte).nodes = it.nodes := by
          rw [nodes_push, nodes_passGate]
        rw [Iterator.emplace, hnds]
        exact .inner h hvs
      · exact fun h => hmono' (Bool.or_eq_true_iff.2 (.inl h))
      · exact hentd.of_child hgate fun h => hmono' (Bool.or_eq_true_iff.2 (.inr h))

theorem At.pop (node : Node) {bytes : List UInt8}
    (hgate : node.gate = true → p.nested = none) (h : it.At (p.down node.gate bytes))
    (hcnt : byteCount node = bytes.length) : (it.popNode node).At p := by
  have hpath : it.currentKey = p.path ++ bytes := by rw [h.currentKey, Position.path_down hgate]
  have hkey : (it.popNode node).currentKey = p.path := by
    rw [popNode, hcnt, hpath, length_append, Nat.add_sub_cancel, take_left]
  have hdep : (it.popNode node).nestedDepth =
      if it.status then it.nestedDepth - bytes.length else it.nestedDepth := by rw [popNode, hcnt]
  have hstat : (it.popNode node).status = if node.gate then false else it.status := rfl
  cases hg : node.gate with
  | true =>
    rw [hg] at h hstat
    obtain ⟨key, _ | path⟩ := p
    · refine ⟨hkey, hstat, ?_, h.rowId_length, nil_prefix⟩
      rw [hdep, h.status, h.nestedDepth]
      exact Nat.sub_self _
    · exact absurd (hgate hg) (Option.some_ne_none path)
  | false =>
    rw [hg] at h hstat
    obtain ⟨key, _ | path⟩ := p
    · refine ⟨hkey, hstat.trans h.status, ?_, h.rowId_length, nil_prefix⟩
      rw [hdep, h.status, h.nestedDepth]
      rfl
    · refine ⟨hkey, hstat.trans h.status, ?_, h.rowId_length, ?_⟩
      · rw [hdep, h.status, h.nestedDepth]
        change (path ++ bytes).length - bytes.length = path.length
        rw [length_append, Nat.add_sub_cancel]
      · exact (prefix_append path bytes).trans h.rowId

/-- Going to another child replaces the last byte. -/
theorem At.replaceByte {byte : UInt8} (h : it.At (p.push [byte])) (next : UInt8) (nodes : List (Node × UInt8)) :
    { it.replaceByte next with nodes := nodes }.At (p.push [next]) := by
  have hkey : it.currentKey.take (it.currentKey.length - 1) ++ [next] = (p.push [next]).path := by
    rw [h.currentKey, Position.path_push, Position.path_push, length_append,
      length_singleton, Nat.add_sub_cancel, take_left]
  obtain ⟨-, hstat, hdep, hlen, hrow⟩ := h
  obtain ⟨key, _ | path⟩ := p
  · have hstat' : it.status = false := hstat
    have hrowId : (it.replaceByte next).rowId = it.rowId := if_neg (by simp [hstat'])
    exact ⟨hkey, hstat, hdep, hrowId ▸ hlen, nil_prefix⟩
  · have hpath : it.nestedDepth = path.length + 1 := by
      rw [hdep]
      exact length_append
    have hrowId : (it.replaceByte next).rowId = it.rowId.set path.length next := by
      rw [Iterator.replaceByte, hpath]
      exact if_pos hstat
    refine ⟨hkey, hstat, ?_, ?_, ?_⟩
    · change it.nestedDepth = (path ++ [next]).length
      rw [hpath, length_append, length_singleton]
    · rw [hrowId, length_set, hlen]
    · rw [hrowId]
      change path ++ [byte] <+: it.rowId at hrow
      obtain ⟨rest, hrst⟩ := hrow
      rw [← hrst, append_assoc path [byte] rest, set_append_right _ _ le_rfl, Nat.sub_self,
        singleton_append, set_cons_zero]
      simp [Position.push, Position.rowPath]

/-- What is behind a byte is at least the next one. -/
theorem succ_le_iff {byte : UInt8} (h : byte ≠ 255) (b : UInt8) : byte + 1 ≤ b ↔ byte < b := by
  have hne : byte.toNat ≠ 255 := fun heq => h (UInt8.toNat_inj.1 heq)
  have hlt := byte.toNat_lt
  rw [UInt8.le_iff_toNat_le, UInt8.lt_iff_toNat_lt, UInt8.toNat_add, UInt8.toNat_one, Nat.mod_eq_of_lt (by omega)]
  rfl

/-- `Next` goes to the leaf that is to be visited first. -/
theorem nextFrom_spec {nodes : List (Node × UInt8)} (h : Stack layout sizes nodes p vs) (hat : it.At p) :
    Moves layout sizes (nextFrom nodes it) p vs := by
  induction h generalizing it with
  | nil h => exact ⟨_, rfl⟩
  | @prefixNode nodes p vs gate data child byte hgate h ih =>
    exact (ih (At.pop (.prefixNode gate data child) hgate hat rfl)).of_parent gate data
  | @inner nodes p vs gate type keys children byte hfits h ih =>
    obtain ⟨hgate, hkeys, hchs⟩ := hfits.inner
    have hup := (ih (At.pop (.inner gate type keys children) hgate hat rfl)).of_parent gate [byte]
    rw [nextFrom]
    by_cases hmax : byte = 255
    · have hno : keys.filter (byte < ·) = [] := by
        refine filter_eq_nil_iff.2 fun b _ => ?_
        rw [hmax, decide_eq_true_eq, not_lt, UInt8.le_iff_toNat_le]
        exact Nat.le_of_lt_succ b.toNat_lt
      rw [if_pos hmax, hno, flatMap_nil, nil_append]
      exact hup
    rw [if_neg hmax]
    have hfind := find?_eq_head_of_sorted hkeys.sorted (P := (byte + 1 ≤ ·))
      (fun x y hlt hx => decide_eq_true ((of_decide_eq_true hx).trans hlt.le))
    have hfilt : keys.filter (byte + 1 ≤ ·) = keys.filter (byte < ·) :=
      filter_congr fun b _ => decide_eq_decide.2 (succ_le_iff hmax b)
    rw [hfilt] at hfind
    cases hnx : keys.find? (byte + 1 ≤ ·) with
    | none =>
      rw [hnx] at hfind
      rw [hfind, flatMap_nil, nil_append]
      exact hup
    | some next =>
      rw [hnx] at hfind
      obtain ⟨hmem, -, hrst⟩ := hfind
      obtain ⟨v, rest, it', hviss, hmin, hvis, -, hentd⟩ := findMinimum_spec (hchs next hmem)
          (hat.replaceByte next ((.inner gate type keys children, next) :: nodes))
      rw [hrst, flatMap_cons, hviss, cons_append, cons_append, append_assoc]
      refine ⟨it', congrArg (Option.map (true, ·)) hmin, hvis _ (.inner hfits h), ?_⟩
      · -- Siblings are in the same gate, and have the same key.
        rcases hentd with h | h | ⟨hnest, hkey⟩
        · exact .inl h
        · exact .inr (.inl h)
        · rw [Position.down, Position.isSome_nested_push] at hnest
          refine .inr (.inr ⟨(Position.isSome_nested_push _ _).trans hnest, ?_⟩)
          rw [hkey, Position.down, Position.key_push hnest, Position.down, Position.key_push hnest]

/-- Outside of gates it does not matter where the iterator comes from. -/
theorem Moves.of_outside {result : Option (Bool × Iterator)}
    (h : Moves layout sizes result p vs) (hp : p.nested = none) (q : Position) :
    Moves layout sizes result q vs := by
  cases vs with
  | nil => exact h
  | cons v vs =>
    obtain ⟨it', heq, hvis, hentd⟩ := h
    refine ⟨it', heq, hvis, ?_⟩
    rcases hentd with h | h | ⟨hnest, -⟩
    · exact .inl h
    · exact .inr (.inl h)
    · rw [hp] at hnest
      exact absurd hnest Bool.false_ne_true

/-- `FindMinimum` as a move to the first leaf of a subtree. -/
theorem findMinimum_moves {node : Node}
    (h : FitsAt layout sizes node p) (hat : it.At p) (hstk : Stack layout sizes it.nodes p vs) :
    Moves layout sizes ((findMinimum node it).map ((true, ·))) p (visits node p ++ vs) := by
  obtain ⟨v, rest, it', hviss, hfind, hvis, -, hentd⟩ := findMinimum_spec h hat
  rw [hviss, hfind]
  exact ⟨it', rfl, hvis vs hstk, hentd⟩

end Iterator

/-- Whether a key is to be visited: it is greater than the lower bound, or equal to it. -/
def AboveBound (bound : List UInt8) (equal : Bool) (key : List UInt8) : Prop :=
  bound < key ∨ equal = true ∧ key = bound

instance (bound : List UInt8) (equal : Bool) (key : List UInt8) : Decidable (AboveBound bound equal key) :=
  inferInstanceAs (Decidable (_ ∨ _))

theorem filter_aboveBound {bound : List UInt8} {vs : List (Position × Node)} (equal : Bool)
    (hvs : ∀ v ∈ vs, bound < v.1.key) : vs.filter (fun v => AboveBound bound equal v.1.key) = vs :=
  filter_eq_self.2 fun v hv => decide_eq_true (.inl (hvs v hv))

namespace Iterator

theorem lowerBound_leaf (leaf : Node) {equal : Bool} {it : Iterator}
    {vs : List (Position × Node)} (hlf : leaf.isInlined ∨ leaf.gate) (hat : it.At ⟨key, none⟩)
    (hstk : Stack layout sizes it.nodes ⟨key, none⟩ vs) (hvs : ∀ v ∈ vs, key < v.1.key)
    {result : Option (Bool × Iterator)}
    (hres : Moves layout sizes result ⟨key, none⟩ (visits leaf ⟨key, none⟩ ++ vs)) :
    Moves layout sizes (if !equal && it.contains key then it.next else result) ⟨key, none⟩
      ((visits leaf ⟨key, none⟩ ++ vs).filter fun v => AboveBound key equal v.1.key) := by
  have hcont : it.contains key = true := by
    rw [contains, hat.currentKey]
    simp [Position.path]
  rw [filter_append, filter_aboveBound equal hvs, hcont, Bool.and_true]
  cases equal with
  | true =>
    rw [filter_eq_self.2 fun v hv => decide_eq_true (.inr ⟨rfl, key_of_mem_visits_leaf hlf hv⟩)]
    exact hres
  | false =>
    have hno : (visits leaf ⟨key, none⟩).filter (fun v => AboveBound key false v.1.key) = [] := by
      refine filter_eq_nil_iff.2 fun v hv => ?_
      rw [decide_eq_true_eq, key_of_mem_visits_leaf hlf hv]
      rintro (hlt | ⟨h, -⟩)
      · exact lt_irrefl _ hlt
      · exact Bool.false_ne_true h
    rw [hno, nil_append]
    exact nextFrom_spec hstk hat

theorem filter_visits_of_above {node : Node} (h : Outside layout sizes node) {bound key : List UInt8}
    (equal : Bool) (habv : ∀ leaf ∈ leaves node, bound < key ++ leaf.1) :
    (visits node ⟨key, none⟩).filter (fun v => AboveBound bound equal v.1.key) = visits node ⟨key, none⟩ := by
  refine filter_eq_self.2 fun v hv => decide_eq_true (.inl ?_)
  obtain ⟨leaf, hlf, heq⟩ := exists_key_of_mem_visits h hv
  exact heq ▸ habv leaf hlf

theorem filter_visits_of_below {node : Node} (h : Outside layout sizes node) {bound key : List UInt8}
    (equal : Bool) (hbelow : ∀ leaf ∈ leaves node, key ++ leaf.1 < bound) :
    (visits node ⟨key, none⟩).filter (fun v => AboveBound bound equal v.1.key) = [] := by
  refine filter_eq_nil_iff.2 fun v hv => ?_
  obtain ⟨leaf, hlf, heq⟩ := exists_key_of_mem_visits h hv
  have hlt := hbelow leaf hlf
  rw [decide_eq_true_eq, heq]
  rintro (hgt | ⟨-, heq⟩)
  · exact lt_asymm hlt hgt
  · exact hlt.ne heq

/-- The first bytes that differ decide. -/
theorem append_cons_lt {common : List UInt8} {x y : UInt8} (h : x < y) (l l' : List UInt8) :
    common ++ x :: l < common ++ y :: l' :=
  (append_lt_append_iff (.of_length_eq rfl)).2 (.inr ⟨rfl, cons_lt_cons_iff.2 (.inl h)⟩)

/-- A path that is the beginning of a bound is the bound, if it is a key. -/
theorem eq_of_leaf {key bound : List UInt8} (hkey : key <+: bound) {leaf : Node}
    (hfree : ∀ l ∈ [(([] : List UInt8), leaf)], PrefixFree (key ++ l.1) bound) : key = bound := by
  have hpre := (hfree _ (mem_singleton_self _)).1 (by simpa using hkey)
  simpa using hpre

/-- A bound does not end within a prefix: it would be a prefix of the keys. -/
theorem ne_of_prefixNode {child : Node} (h : Outside layout sizes child) {key rest data bytes : List UInt8}
    (hfree : ∀ leaf ∈ leaves (.prefixNode false data child), PrefixFree (key ++ leaf.1) (key ++ rest))
    (hbs : bytes ≠ []) : data ≠ rest ++ bytes := by
  intro hdata
  obtain ⟨leaf, hlf⟩ := exists_mem_of_ne_nil _ (leaves_ne_nil h)
  have hmem : (data ++ leaf.1, leaf.2) ∈ leaves (.prefixNode false data child) :=
    mem_map_of_mem (f := fun leaf => (data ++ leaf.1, leaf.2)) hlf
  have hpre : key ++ rest <+: key ++ (data ++ leaf.1) := by
    rw [hdata, append_assoc]
    exact (prefix_append_right_inj key).2 (prefix_append _ _)
  have heq := (hfree _ hmem).2 hpre
  rw [hdata] at heq
  simp [hbs] at heq

theorem ne_nil_of_inner {type : NodeType} {keys : List UInt8} {children : UInt8 → Node}
    (h : Outside layout sizes (.inner false type keys children)) {key rest : List UInt8}
    (hfree : ∀ leaf ∈ leaves (.inner false type keys children), PrefixFree (key ++ leaf.1) (key ++ rest)) :
    rest ≠ [] := by
  rintro rfl
  obtain ⟨leaf, hlf⟩ := exists_mem_of_ne_nil _ (leaves_ne_nil h)
  obtain ⟨byte, -, hlf'⟩ := mem_flatMap.1 hlf
  obtain ⟨leaf, -, rfl⟩ := mem_map.1 hlf'
  have heq := (hfree _ hlf).2 ((prefix_append_right_inj key).2 nil_prefix)
  simp at heq

theorem lowerBound_spec {bound : List UInt8} {equal : Bool} {node : Node}
    {it : Iterator} {vs : List (Position × Node)} (h : Outside layout sizes node) (hat : it.At ⟨key, none⟩)
    (hstk : Stack layout sizes it.nodes ⟨key, none⟩ vs) (hkey : key <+: bound)
    (hfree : ∀ leaf ∈ leaves node, PrefixFree (key ++ leaf.1) bound) (hvs : ∀ v ∈ vs, bound < v.1.key) :
    Moves layout sizes (lowerBound bound equal node key.length it) ⟨key, none⟩
      ((visits node ⟨key, none⟩ ++ vs).filter fun v => AboveBound bound equal v.1.key) := by
  induction node generalizing key it vs with
  | empty | leafNode gate type bytes => exact absurd h not_false
  | inlined rowId =>
    obtain rfl : key = bound := eq_of_leaf hkey hfree
    exact lowerBound_leaf (.inlined rowId) (.inl rfl) hat hstk hvs
      ⟨_, rfl, ⟨rfl, ⟨hat.1, hat.2, hat.3, hat.4, hat.5⟩, hstk⟩, .self _ _ _⟩
  | prefixNode gate data child ih =>
    cases gate with
    | true =>
      obtain rfl : key = bound := eq_of_leaf hkey hfree
      exact lowerBound_leaf (.prefixNode true data child) (.inr rfl) hat hstk hvs
        (findMinimum_moves h hat hstk)
    | false =>
      have hch : Outside layout sizes child := h.2.2.2
      have hat' : At ⟨it.currentKey ++ data, (.prefixNode false data child, 0) :: it.nodes, it.lastLeaf,
          it.rowId, it.status, it.nestedDepth, it.enteredNestedLeaf⟩ ⟨key ++ data, none⟩ := by
        refine ⟨?_, hat.2, hat.3, hat.4, hat.5⟩
        rw [hat.1]
        simp [Position.path, Position.rowPath]
      have hstk' : Stack layout sizes ((.prefixNode false data child, 0) :: it.nodes) ⟨key ++ data, none⟩ vs :=
        show Stack layout sizes _ (Position.down ⟨key, none⟩ false data) vs from .prefixNode nofun hstk
      have hmem : ∀ leaf ∈ leaves child, (data ++ leaf.1, leaf.2) ∈ leaves (.prefixNode false data child) :=
        fun leaf hlf => mem_map_of_mem (f := fun leaf => (data ++ leaf.1, leaf.2)) hlf
      rw [lowerBound, if_neg Bool.false_ne_true]
      obtain ⟨rest, rfl⟩ := hkey
      rcases comparePrefix_cases (key ++ rest) data key.length with ⟨rest', hrst, hcmp⟩ |
        ⟨common, byte, keyByte, bytes, rest', hdata, hrst, hne, hcmp⟩ | ⟨bytes, hbs, hdata, hcmp⟩
      · rw [drop_left] at hrst
        subst hrst
        rw [hcmp, ← length_append]
        refine (ih hch hat' hstk' ⟨rest', append_assoc _ _ _⟩ (fun leaf hlf => ?_) hvs).of_outside
          rfl _
        rw [append_assoc]
        exact hfree _ (hmem leaf hlf)
      · rw [drop_left] at hrst
        have hby : data.getD common.length 0 = byte := by rw [hdata]; simp
        have hkeyByte : (key ++ rest).getD (key.length + common.length) 0 = keyByte := by
          rw [hrst, ← append_assoc, ← length_append]
          simp
        rw [hcmp]
        dsimp only
        rw [hby, hkeyByte, filter_append, filter_aboveBound equal hvs]
        rcases lt_or_gt_of_ne hne with hlt | hgt
        · rw [if_pos hlt, filter_visits_of_below h, nil_append]
          · exact (nextFrom_spec hstk' hat').of_outside rfl _
          · intro leaf hlf
            obtain ⟨leaf, -, rfl⟩ := mem_map.1 hlf
            rw [hdata, hrst, append_assoc common, ← append_assoc key, ← append_assoc key]
            exact append_cons_lt hlt _ _
        · rw [if_neg (lt_asymm hgt), filter_visits_of_above h]
          · exact (findMinimum_moves (p := ⟨key ++ data, none⟩) hch hat' hstk').of_outside rfl _
          · intro leaf hlf
            obtain ⟨leaf, -, rfl⟩ := mem_map.1 hlf
            rw [hdata, hrst, append_assoc common, ← append_assoc key, ← append_assoc key]
            exact append_cons_lt hgt _ _
      · rw [drop_left] at hdata
        exact absurd hdata (ne_of_prefixNode hch hfree hbs)
  | inner gate type keys children ih =>
    cases gate with
    | true =>
      obtain rfl : key = bound := eq_of_leaf hkey hfree
      rw [lowerBound, if_pos rfl]
      exact lowerBound_leaf (.inner true type keys children) (.inr rfl) hat hstk hvs
        (findMinimum_moves h hat hstk)
    | false =>
      have hmem : ∀ byte ∈ keys, ∀ leaf ∈ leaves (children byte),
          (byte :: leaf.1, leaf.2) ∈ leaves (.inner false type keys children) := by
        intro byte hby leaf hlf
        exact mem_flatMap.2 ⟨byte, hby, mem_map_of_mem (f := fun leaf => (byte :: leaf.1, leaf.2)) hlf⟩
      rw [lowerBound, if_neg Bool.false_ne_true]
      obtain ⟨rest, rfl⟩ := hkey
      cases rest with
      | nil => exact absurd rfl (ne_nil_of_inner h hfree)
      | cons keyByte rest =>
        have hkeyByte : (key ++ keyByte :: rest)[key.length]? = some keyByte := by simp
        have hbelow : ∀ b ∈ keys, b < keyByte → (visits (children b) ⟨key ++ [b], none⟩).filter
            (fun v => AboveBound (key ++ keyByte :: rest) equal v.1.key) = [] := by
          intro b hb hlt
          refine filter_visits_of_below (h.2 b hb) equal fun leaf _ => ?_
          rw [append_assoc, singleton_append]
          exact append_cons_lt hlt _ _
        have habv : ∀ b ∈ keys, keyByte < b → (visits (children b) ⟨key ++ [b], none⟩).filter
            (fun v => AboveBound (key ++ keyByte :: rest) equal v.1.key) =
              visits (children b) ⟨key ++ [b], none⟩ := by
          intro b hb hlt
          refine filter_visits_of_above (h.2 b hb) equal fun leaf _ => ?_
          rw [append_assoc, singleton_append]
          exact append_cons_lt hlt _ _
        have hviss : (visits (.inner false type keys children) ⟨key, none⟩).filter
            (fun v => AboveBound (key ++ keyByte :: rest) equal v.1.key) =
            (keys.filter (keyByte ≤ ·)).flatMap fun b => (visits (children b) ⟨key ++ [b], none⟩).filter
              fun v => AboveBound (key ++ keyByte :: rest) equal v.1.key := by
          rw [visits, filter_flatMap]
          refine (flatMap_filter_of_nil fun b hb hlt => hbelow b hb ?_).symm
          simpa using hlt
        have hfind := find?_eq_head_of_sorted h.1.sorted (P := (keyByte ≤ ·))
          (fun x y hlt hx => decide_eq_true ((of_decide_eq_true hx).trans hlt.le))
        rw [hkeyByte, filter_append, filter_aboveBound equal hvs, hviss]
        dsimp only
        cases hnx : keys.find? (keyByte ≤ ·) with
        | none =>
          rw [hnx] at hfind
          rw [hfind, flatMap_nil, nil_append]
          exact nextFrom_spec hstk hat
        | some byte =>
          rw [hnx] at hfind
          obtain ⟨hby, hle, hrst⟩ := hfind
          have hsiblings : (keys.filter (byte < ·)).flatMap (fun b => (visits (children b) ⟨key ++ [b], none⟩).filter
              fun v => AboveBound (key ++ keyByte :: rest) equal v.1.key) =
              (keys.filter (byte < ·)).flatMap fun b => visits (children b) ⟨key ++ [b], none⟩ := by
            refine flatMap_congr fun b hb => ?_
            obtain ⟨hb, hlt⟩ := mem_filter.1 hb
            exact habv b hb ((of_decide_eq_true hle).trans_lt (of_decide_eq_true hlt))
          have hat' : At ⟨it.currentKey ++ [byte], (.inner false type keys children, byte) :: it.nodes,
              it.lastLeaf, it.rowId, it.status, it.nestedDepth, it.enteredNestedLeaf⟩ ⟨key ++ [byte], none⟩ := by
            refine ⟨?_, hat.2, hat.3, hat.4, hat.5⟩
            rw [hat.1]
            simp [Position.path, Position.rowPath]
          have hstk' : Stack layout sizes ((.inner false type keys children, byte) :: it.nodes)
              ⟨key ++ [byte], none⟩
              ((keys.filter (byte < ·)).flatMap (fun b => visits (children b) ⟨key ++ [b], none⟩) ++ vs) :=
            Stack.inner (p := ⟨key, none⟩) h hstk
          have hch : Outside layout sizes (children byte) := h.2 byte hby
          rw [hrst, flatMap_cons, hsiblings, append_assoc]
          dsimp only
          by_cases hlt : keyByte < byte
          · rw [if_pos hlt, habv byte hby hlt]
            exact (findMinimum_moves (p := ⟨key ++ [byte], none⟩) hch hat' hstk').of_outside rfl _
          · obtain rfl : byte = keyByte := le_antisymm (not_lt.1 hlt) (of_decide_eq_true hle)
            have hvs' : ∀ v ∈ (keys.filter (byte < ·)).flatMap (fun b => visits (children b) ⟨key ++ [b], none⟩) ++ vs,
                key ++ byte :: rest < v.1.key := by
              intro v hv
              rcases mem_append.1 hv with hv | hv
              · obtain ⟨b, hb, hv⟩ := mem_flatMap.1 hv
                obtain ⟨hb, hlt⟩ := mem_filter.1 hb
                obtain ⟨leaf, -, heq⟩ := exists_key_of_mem_visits (h.2 b hb) hv
                rw [heq, append_assoc, singleton_append]
                exact append_cons_lt (of_decide_eq_true hlt) _ _
              · exact hvs v hv
            have hmove := ih byte hch hat' hstk' ⟨rest, by simp⟩ (fun leaf hlf => ?_) hvs'
            · rw [filter_append, filter_aboveBound equal hvs', length_append, length_singleton] at hmove
              rw [if_neg hlt]
              exact hmove.of_outside rfl _
            · rw [append_assoc, singleton_append]
              exact hfree _ (hmem byte hby leaf hlf)

end Iterator

end Art

end WfOpt

import WfOpt.Index.ArtShape

/-!
# Inserting into and deleting from an adaptive radix tree

An insertion goes down to where the key leaves the tree. A prefix is split there at the first byte that differs, and
an inlined row id becomes a gate, or, inside a gate, a subtree with both row ids.

A deletion goes down to the row id, and keeps references to the last three nodes above (a chain of prefixes counts
as one node). A `Node4` with one child left is removed, and its byte becomes a byte of the prefix above or of a new
one. A reference into the tree is the path to it here (`Ref`).
-/

namespace WfOpt

open Function

namespace Art

/-! ## Nodes with children and leaf nodes -/

/-- The next larger type of node. -/
def NodeType.grown : NodeType → NodeType
  | .node4 => .node16
  | .node16 => .node48
  | .node48 => .node256
  | .node256 => .node256

/-- The next larger type of leaf node. -/
def LeafType.grown : LeafType → LeafType
  | .node7Leaf => .node15Leaf
  | .node15Leaf => .node256Leaf
  | .node256Leaf => .node256Leaf

/-- The type of a node behind a deletion: below 4 children of a `Node16`, `Node48::SHRINK_THRESHOLD`, and
    `Node256::SHRINK_THRESHOLD`. -/
def NodeType.shrunk (type : NodeType) (count : ℕ) : NodeType := match type with
  | .node4 => .node4
  | .node16 => if 4 ≤ count then .node16 else .node4
  | .node48 => if 12 ≤ count then .node48 else .node16
  | .node256 => if 36 < count then .node256 else .node48

/-- The type of a leaf node behind a deletion. -/
def LeafType.shrunk (type : LeafType) (count : ℕ) : LeafType := match type with
  | .node7Leaf => .node7Leaf
  | .node15Leaf => if 7 ≤ count then .node15Leaf else .node7Leaf
  | .node256Leaf => if 12 < count then .node256Leaf else .node15Leaf

/-- Where `InsertChildInternal` and `InsertByteInternal` put a byte: in front of the first one that is not less. -/
def insertByte (byte : UInt8) (keys : List UInt8) : List UInt8 :=
  keys.takeWhile (· < byte) ++ byte :: keys.dropWhile (· < byte)

/-- `Node::InsertChild`. A full node grows first. -/
def insertChild (byte : UInt8) (child : Node) : Node → Option Node
  | .inner gate type keys children =>
    some (.inner gate (if keys.length = type.capacity then type.grown else type) (insertByte byte keys)
      (update children byte child))
  | .leafNode gate type bytes =>
    some (.leafNode gate (if bytes.length = type.capacity then type.grown else type) (insertByte byte bytes))
  | _ => none

/-- `Node4::New`. -/
def newNode4 (gate : Bool) : Node := .inner gate .node4 [] fun _ => .empty

/-! ## Prefixes -/

/-- The loop of `Prefix::New`, for at most a number of prefix nodes. -/
def newChain (prefixCount : ℕ) : ℕ → List UInt8 → Node → Node
  | 0, _, child => child
  | nodes + 1, bytes, child =>
    if bytes = [] then child
    else .prefixNode false (bytes.take prefixCount) (newChain prefixCount nodes (bytes.drop prefixCount) child)

/-- `Prefix::New`: the bytes in full prefix nodes, except for the last one. -/
def newPrefix (prefixCount : ℕ) (bytes : List UInt8) (child : Node) : Node :=
  newChain prefixCount bytes.length bytes child

/-- `Prefix::Append` of some bytes to a last prefix node, and what is done with the last one then. -/
def appendBytes (prefixCount : ℕ) (onTail : Bool → List UInt8 → Node) : List UInt8 → Bool → List UInt8 → Node
  | [], gate, data => onTail gate data
  | byte :: bytes, gate, data =>
    if data.length ≠ prefixCount then appendBytes prefixCount onTail bytes gate (data ++ [byte])
    else .prefixNode gate data (appendBytes prefixCount onTail bytes false [byte])

/-- `Prefix::Append` of a prefix and those behind it, up to a gate. -/
def appendPrefix (prefixCount : ℕ) : Node → Bool → List UInt8 → Node
  | .prefixNode true bytes child, gate, data => .prefixNode gate data (.prefixNode true bytes child)
  | .prefixNode false bytes child, gate, data =>
    appendBytes prefixCount (fun gate data => appendPrefix prefixCount child gate data) bytes gate data
  | other, gate, data => .prefixNode gate data other

/-- A change to the last prefix of a chain (`Prefix::GetTail`). -/
def mapTail (onTail : Bool → List UInt8 → Node) : Node → Node
  | .prefixNode gate data child =>
    if child.isPrefix then .prefixNode gate data (mapTail onTail child) else onTail gate data
  | node => node

/-- What `Prefix::Split` leaves: the nodes up to the one in place of the byte, what was behind it, and the gate status
    of a freed prefix. -/
def split (prefixCount : ℕ) (gate : Bool) (data : List UInt8) (child : Node) (pos : ℕ) :
    (Node → Node) × Node × Bool :=
  if pos + 1 = prefixCount then (fun node => .prefixNode gate data.dropLast node, child, false)
  else
    let rest := if pos + 1 < data.length then
        if child.isPrefix && !child.gate then appendPrefix prefixCount child false (data.drop (pos + 1))
        else .prefixNode false (data.drop (pos + 1)) child
      else child
    if pos = 0 then (fun node => node, rest, gate)
    else (fun node => .prefixNode gate (data.take pos) node, rest, false)

/-! ## Insertion -/

/-- `ARTConflictType`. -/
inductive ConflictType
  | noConflict
  | constraint
  | transaction
  deriving DecidableEq, Repr

/-- `IndexAppendMode`. -/
inductive AppendMode
  | default
  | ignoreDuplicates
  | insertDuplicates
  deriving DecidableEq, Repr

/-- `ARTKey::GetMismatchPos`. -/
def mismatchPos (key other : List UInt8) (start : ℕ) : Option ℕ :=
  (List.range' start (other.length - start)).find? fun i => key[i]? ≠ other[i]?

/-- `Leaf::MergeInlined`. -/
def mergeInlined (prefixCount : ℕ) (left right : RowId) (status : Bool) (depth : ℕ) : Option Node :=
  let start := if status then depth else 0
  match mismatchPos (rowIdKey left) (rowIdKey right) start with
  | none => none
  | some pos =>
    let leftByte := (rowIdKey left).getD pos 0
    let rightByte := (rowIdKey right).getD pos 0
    let node := if pos = rowIdCount then
        (insertChild leftByte .empty (.leafNode false .node7Leaf [])).bind (insertChild rightByte .empty)
      else (insertChild leftByte (.inlined left) (newNode4 false)).bind (insertChild rightByte (.inlined right))
    node.map fun node =>
      (newPrefix prefixCount (((rowIdKey left).take pos).drop start) node).setGate !status

/-- `InsertIntoNode`. -/
def insertIntoNode (prefixCount : ℕ) (key : List UInt8) (rowId : RowId) (depth : ℕ) (status : Bool)
    (node : Node) : Option Node :=
  if status then
    match (rowIdKey rowId)[depth]? with
    | none => none
    | some byte => insertChild byte (.inlined rowId) node
  else
    match key[depth]? with
    | none => none
    | some byte => insertChild byte (newPrefix prefixCount (key.drop (depth + 1)) (.inlined rowId)) node

/-- `InsertIntoPrefix`. -/
def insertIntoPrefix (prefixCount : ℕ) (gate : Bool) (data : List UInt8) (child : Node) (key : List UInt8)
    (rowId : RowId) (pos depth : ℕ) (status : Bool) : Option Node :=
  let (rebuild, rest, splitStatus) := split prefixCount gate data child pos
  ((insertChild (data.getD pos 0) rest (newNode4 splitStatus)).bind
    (insertIntoNode prefixCount key rowId depth status)).map rebuild

/-- The variables of `Insert` and `Delete`: the current key, the depth in it, and whether a gate has been entered. -/
structure Descent where
  key : List UInt8
  depth : ℕ
  status : Bool

/-- A gate is entered with the key of the row id. -/
def Descent.enter (d : Descent) (gate : Bool) (rowId : RowId) : Descent :=
  if !d.status && gate then ⟨rowIdKey rowId, 0, true⟩ else d

/-- What an insertion may depend on: whether the index is unique, and the arguments for duplicates. -/
structure InsertInfo where
  unique : Bool
  deleteArt : Option Node
  appendMode : AppendMode

/-- `InsertIntoInlined`. The leaf of the delete index is an inlined row id. -/
def insertIntoInlined (layout : Layout) (info : InsertInfo) (key : List UInt8) (rowId inlined : RowId)
    (depth : ℕ) (status : Bool) : Option (Node × ConflictType) :=
  let merge := (mergeInlined layout.prefixCount inlined rowId status depth).map ((·, ConflictType.noConflict))
  if !info.unique || info.appendMode = .insertDuplicates then merge
  else
    match info.deleteArt with
    | none =>
      if info.appendMode = .ignoreDuplicates then some (.inlined inlined, .noConflict)
      else some (.inlined inlined, .constraint)
    | some deleteArt =>
      match lookup key deleteArt 0 with
      | none => none
      | some none => some (.inlined inlined, .constraint)
      | some (some (.inlined deleted)) =>
        if deleted ≠ inlined then some (.inlined inlined, .constraint) else merge
      | some (some _) => none

/-- The loop of `ARTOperator::Insert`. The result is the subtree that replaces the active node. -/
def insertLoop (layout : Layout) (info : InsertInfo) (key : List UInt8) (rowId : RowId) :
    Node → Descent → Option (Node × ConflictType)
  | .empty, _ => none
  | .inlined inlined, d => insertIntoInlined layout info key rowId inlined d.depth d.status
  | .leafNode gate type bytes, d =>
    if !d.status && gate && info.unique then some (.leafNode gate type bytes, .transaction)
    else
      let d := d.enter gate rowId
      match d.key[rowIdCount]? with
      | none => none
      | some byte => (insertChild byte .empty (.leafNode gate type bytes)).map ((·, .noConflict))
  | .inner gate type keys children, d =>
    if !d.status && gate && info.unique then some (.inner gate type keys children, .transaction)
    else
      let d := d.enter gate rowId
      match d.key[d.depth]? with
      | none => none
      | some byte =>
        if byte ∈ keys then
          (insertLoop layout info key rowId (children byte) { d with depth := d.depth + 1 }).map fun r =>
            (.inner gate type keys (update children byte r.1), r.2)
        else
          (insertIntoNode layout.prefixCount key rowId d.depth d.status (.inner gate type keys children)).map
            ((·, .noConflict))
  | .prefixNode gate data child, d =>
    if !d.status && gate && info.unique then some (.prefixNode gate data child, .transaction)
    else
      let d := d.enter gate rowId
      match comparePrefix d.key data d.depth with
      | none => none
      | some (some pos) =>
        (insertIntoPrefix layout.prefixCount gate data child d.key rowId pos (d.depth + pos) d.status).map
          ((·, .noConflict))
      | some none =>
        (insertLoop layout info key rowId child { d with depth := d.depth + data.length }).map fun r =>
          (.prefixNode gate data r.1, r.2)

/-- `ARTOperator::Insert` into an index, from its root and outside of gates. -/
def insert (layout : Layout) (info : InsertInfo) (key : List UInt8) (rowId : RowId) (tree : Node) :
    Option (Node × ConflictType) :=
  if tree.isEmpty then some (newPrefix layout.prefixCount key (.inlined rowId), .noConflict)
  else insertLoop layout info key rowId tree ⟨key, 0, false⟩

/-! ## Deletion -/

/-- A step from a node to its child, with all there is besides this child. -/
inductive Frame
  | prefixNode (gate : Bool) (data : List UInt8)
  | inner (gate : Bool) (type : NodeType) (keys : List UInt8) (children : UInt8 → Node) (byte : UInt8)

/-- The node with another child. -/
def Frame.fill : Frame → Node → Node
  | .prefixNode gate data, child => .prefixNode gate data child
  | .inner gate type keys children byte, child => .inner gate type keys (update children byte child)

/-- The tree with another node at the end of a path, whose last step is its first element. -/
def fill : List Frame → Node → Node
  | [], node => node
  | frame :: path, node => fill path (frame.fill node)

/-- A reference to a node of the tree. -/
structure Ref where
  node : Node
  path : List Frame

/-- The tree with another node at a reference. -/
def Ref.assign (ref : Ref) (node : Node) : Node := fill ref.path node

/-- `ConcatNode4WasGate`. -/
def concatNode4WasGate (prefixCount : ℕ) (child : Node) (byte : UInt8) : Node := if child.isInlined then child
  else if child.isPrefix then (appendPrefix prefixCount child false [byte]).setGate true
  else .prefixNode true [byte] child

/-- `ConcatChildIsGate`. -/
def concatChildIsGate (prefixCount : ℕ) (parent node4 : Ref) (child : Node) (byte : UInt8) : Node :=
  if !parent.node.isPrefix then node4.assign (.prefixNode false [byte] child)
  else
    parent.assign (mapTail
      (fun gate data => appendBytes prefixCount (fun gate data => .prefixNode gate data child) [byte] gate data)
      parent.node)

/-- `ConcatInternal`. -/
def concatInternal (prefixCount : ℕ) (parent node4 : Ref) (child : Node) (byte : UInt8) (insideGate : Bool) : Node :=
  if child.isInlined then
    if insideGate then
      -- All prefixes up to the `Node4` are freed.
      if parent.node.isPrefix then parent.assign child else node4.assign child
    else if parent.node.isPrefix then
      parent.assign (mapTail
        (fun gate data => appendBytes prefixCount (fun gate data => .prefixNode gate data child) [byte] gate data)
        parent.node)
    else node4.assign (.prefixNode false [byte] child)
  else if parent.node.isPrefix then
    parent.assign (mapTail (fun gate data => appendBytes prefixCount
        (fun gate data => if child.isPrefix then appendPrefix prefixCount child gate data
          else .prefixNode gate data child) [byte] gate data)
      parent.node)
  else if child.isPrefix then node4.assign (appendPrefix prefixCount child false [byte])
  else node4.assign (.prefixNode false [byte] child)

/-- `Prefix::Concat`. The `Node4` has been freed: the chain of the parent ends where it was. -/
def concat (prefixCount : ℕ) (parent node4 : Ref) (child : Node) (byte : UInt8) (node4Status : Bool) : Node :=
  if node4Status then node4.assign (concatNode4WasGate prefixCount child byte)
  else if child.gate then concatChildIsGate prefixCount parent node4 child byte
  else concatInternal prefixCount parent node4 child byte parent.node.gate

/-- `Node::DeleteChild`. The result is the tree. A node has a child at the byte. -/
def deleteChild (prefixCount : ℕ) (node parent : Ref) (byte : UInt8) (rowId : RowId) : Option Node :=
  match node.node with
  | .inner gate .node4 keys children =>
    if byte ∈ keys then
      match keys.erase byte with
      | [remaining] => some (concat prefixCount parent node (children remaining) remaining gate)
      | keys => some (node.assign (.inner gate .node4 keys children))
    else none
  | .inner gate type keys children =>
    if byte ∈ keys then
      some (node.assign (.inner gate (type.shrunk (keys.erase byte).length) (keys.erase byte) children))
    else none
  | .leafNode gate .node7Leaf bytes =>
    match bytes.erase byte with
    | [remaining] =>
      let remainder : RowId := (rowId &&& 0xFFFFFFFFFFFFFF00#64) ||| remaining.toBitVec.setWidth 64
      if parent.node.isPrefix then some (parent.assign (.inlined remainder))
      else some (node.assign (.inlined remainder))
    | bytes => some (node.assign (.leafNode gate .node7Leaf bytes))
  | .leafNode gate type bytes =>
    some (node.assign (.leafNode gate (type.shrunk (bytes.erase byte).length) (bytes.erase byte)))
  | _ => none

/-- The references and depths that the loop of `Delete` keeps. -/
structure Ancestors where
  greatgrandparent : Ref
  grandparent : Ref
  parent : Ref
  grandparentDepth : ℕ
  parentDepth : ℕ

/-- One step down from a node. -/
def Ancestors.shift (a : Ancestors) (node : Ref) (depth : ℕ) : Ancestors :=
  ⟨a.grandparent, a.parent, node, a.parentDepth, depth⟩

/-- The loop of `ARTOperator::Delete`, from a node on. A chain of prefixes is passed in one round (`inChain`). -/
def deleteLoop (prefixCount : ℕ) (rowId : RowId) :
    Node → List Frame → Ancestors → Descent → (passedNode inChain : Bool) → Option Node
  | .empty, path, _, _, _, _ => some (fill path .empty)
  | .inlined inlined, path, a, d, passedNode, _ =>
    if inlined ≠ rowId then some (fill path (.inlined inlined))
    else if !passedNode && a.parent.node.isPrefix then some (a.parent.assign .empty)
    else if a.parent.node.isPrefix then
      match d.key[a.grandparentDepth]? with
      | none => none
      | some byte => deleteChild prefixCount a.grandparent a.greatgrandparent byte rowId
    else
      match d.key[a.parentDepth]? with
      | none => none
      | some byte => deleteChild prefixCount a.parent a.grandparent byte rowId
  | .prefixNode gate data child, path, a, d, passedNode, inChain =>
    let d := d.enter gate rowId
    let a := if inChain then a else a.shift ⟨.prefixNode gate data child, path⟩ d.depth
    match comparePrefix d.key data d.depth with
    | none => none
    | some (some _) => some (fill path (.prefixNode gate data child))
    | some none =>
      deleteLoop prefixCount rowId child (.prefixNode gate data :: path) a { d with depth := d.depth + data.length }
        passedNode (child.isPrefix && !child.gate)
  | .inner gate type keys children, path, a, d, _, _ =>
    let d := d.enter gate rowId
    match d.key[d.depth]? with
    | none => none
    | some byte =>
      if byte ∈ keys then
        if (children byte).isEmpty then none
        else
          deleteLoop prefixCount rowId (children byte) (.inner gate type keys children byte :: path)
            (a.shift ⟨.inner gate type keys children, path⟩ d.depth) { d with depth := d.depth + 1 } true false
      else some (fill path (.inner gate type keys children))
  | .leafNode gate type bytes, path, a, d, _, _ =>
    let d := d.enter gate rowId
    match d.key[d.depth]? with
    | none => none
    | some byte =>
      if byte ∈ bytes then deleteChild prefixCount ⟨.leafNode gate type bytes, path⟩ a.parent byte rowId
      else some (fill path (.leafNode gate type bytes))

/-- `ARTOperator::Delete`. -/
def delete (layout : Layout) (key : List UInt8) (rowId : RowId) (tree : Node) : Option Node :=
  deleteLoop layout.prefixCount rowId tree []
    ⟨⟨.empty, []⟩, ⟨.empty, []⟩, ⟨tree, []⟩, 0, 0⟩ ⟨key, 0, false⟩ false false

end Art

end WfOpt

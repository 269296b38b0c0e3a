import WfOpt.Index.Art

/-!
# Scanning an adaptive radix tree

An iterator (`Iterator`) goes through the leaves of a tree in the order of their keys. It
keeps the nodes on the path to the leaf it is at, each with the byte it went down at, and the bytes of this path. Inside of a
gate, these bytes go on with those of the row ids of the gate, which are also kept on their own.

A scan compares the key with its upper bound at each leaf outside of gates, and at the first one of each gate.
-/

namespace WfOpt

namespace Art

/-- `Iterator`. The top of the stack `nodes` is its first element. -/
structure Iterator where
  currentKey : List UInt8
  nodes : List (Node × UInt8)
  lastLeaf : Node
  rowId : List UInt8
  /-- Whether the iterator is inside a gate. -/
  status : Bool
  nestedDepth : ℕ
  enteredNestedLeaf : Bool

namespace Iterator

/-- The iterator before it is at a leaf. -/
def new : Iterator := ⟨[], [], .empty, List.replicate 8 0, false, 0, false⟩

/-- `IteratorKey::Contains`. -/
def contains (key : List UInt8) (it : Iterator) : Bool := key.isPrefixOf it.currentKey

/-- The comparison of `IteratorKey::GreaterThan`, up to the end of a key: the first bytes that differ decide. -/
def greaterBytes : List UInt8 → List UInt8 → Option Bool
  | x :: xs, y :: ys => if y < x then some true else if x < y then some false else greaterBytes xs ys
  | _, _ => none

/-- `IteratorKey::GreaterThan`. -/
def greaterThan (it : Iterator) (key : List UInt8) (equal : Bool) : Bool := match greaterBytes it.currentKey key with
  | some greater => greater
  | none =>
    if equal then decide (key.length < it.currentKey.length - it.nestedDepth)
    else decide (key.length ≤ it.currentKey.length - it.nestedDepth)

/-- `IteratorKey::Push` of a byte, which is a byte of the row id inside a gate. -/
def push (it : Iterator) (byte : UInt8) : Iterator := if it.status then
    { it with
      currentKey := it.currentKey ++ [byte]
      rowId := it.rowId.set it.nestedDepth byte
      nestedDepth := it.nestedDepth + 1 }
  else { it with currentKey := it.currentKey ++ [byte] }

/-- What `FindMinimum` does at a gate. -/
def passGate (it : Iterator) (gate : Bool) : Iterator :=
  if gate then { it with status := true, enteredNestedLeaf := true, nestedDepth := 0 } else it

/-- `nodes.emplace`. -/
def emplace (it : Iterator) (node : Node) (byte : UInt8) : Iterator := { it with nodes := (node, byte) :: it.nodes }

/-- `FindMinimum`: down to the first leaf of a subtree. -/
def findMinimum : Node → Iterator → Option Iterator
  | .empty, _ => none
  | .inlined rowId, it => some { it with lastLeaf := .inlined rowId }
  | .leafNode gate type bytes, it => some { it with lastLeaf := .leafNode gate type bytes }
  | .prefixNode gate data child, it =>
    findMinimum child ((data.foldl push (it.passGate gate)).emplace (.prefixNode gate data child) 0)
  | .inner gate type keys children, it =>
    match keys.find? (0 ≤ ·) with
    | none => none
    | some byte =>
      findMinimum (children byte)
        (((it.passGate gate).push byte).emplace (.inner gate type keys children) byte)

/-- The number of bytes on the path that belong to a node. -/
def byteCount : Node → ℕ
  | .prefixNode _ data _ => data.length
  | _ => 1

/-- `PopNode`, for the node at the top of the stack. -/
def popNode (it : Iterator) (node : Node) : Iterator := { it with
    currentKey := it.currentKey.take (it.currentKey.length - byteCount node)
    nestedDepth := if it.status then it.nestedDepth - byteCount node else it.nestedDepth
    status := if node.gate then false else it.status }

/-- What `Next` does when it goes to another child of the node at the top of the stack. -/
def replaceByte (it : Iterator) (byte : UInt8) : Iterator := { it with
    currentKey := it.currentKey.take (it.currentKey.length - 1) ++ [byte]
    rowId := if it.status then it.rowId.set (it.nestedDepth - 1) byte else it.rowId }

/-- The loop of `Next`, with the stack. -/
def nextFrom : List (Node × UInt8) → Iterator → Option (Bool × Iterator)
  | [], it => some (false, { it with nodes := [] })
  | (.prefixNode gate data child, _) :: nodes, it =>
    nextFrom nodes (it.popNode (.prefixNode gate data child))
  | (.inner gate type keys children, byte) :: nodes, it =>
    if byte = 255 then nextFrom nodes (it.popNode (.inner gate type keys children))
    else
      match keys.find? (byte + 1 ≤ ·) with
      | none => nextFrom nodes (it.popNode (.inner gate type keys children))
      | some next =>
        (findMinimum (children next)
          { it.replaceByte next with nodes := (.inner gate type keys children, next) :: nodes }).map
            ((true, ·))
  | _ :: _, _ => none

/-- `Next`: to the next leaf, if there is one. -/
def next (it : Iterator) : Option (Bool × Iterator) := nextFrom it.nodes it

/-- `LowerBound`: to the first leaf whose key is greater than a key, or equal to it. -/
def lowerBound (key : List UInt8) (equal : Bool) : Node → ℕ → Iterator → Option (Bool × Iterator)
  | .empty, _, it => some (false, it)
  | .inlined rowId, _, it =>
    if !equal && it.contains key then it.next
    else some (true, { it with lastLeaf := .inlined rowId })
  | .leafNode gate type bytes, _, it =>
    if !equal && it.contains key then it.next
    else if gate then (findMinimum (.leafNode gate type bytes) it).map ((true, ·))
    else some (true, { it with lastLeaf := .leafNode gate type bytes })
  | .prefixNode gate data child, depth, it =>
    if gate then
      if !equal && it.contains key then it.next
      else (findMinimum (.prefixNode gate data child) it).map ((true, ·))
    else
      let below := { it with
        currentKey := it.currentKey ++ data
        nodes := (.prefixNode gate data child, 0) :: it.nodes }
      match comparePrefix key data depth with
      | none => none
      | some (some i) =>
        if data.getD i 0 < key.getD (depth + i) 0 then below.next
        else (findMinimum child below).map ((true, ·))
      | some none => lowerBound key equal child (depth + data.length) below
  | .inner gate type keys children, depth, it =>
    if gate then
      if !equal && it.contains key then it.next
      else (findMinimum (.inner gate type keys children) it).map ((true, ·))
    else
      match key[depth]? with
      | none => none
      | some keyByte =>
        match keys.find? (keyByte ≤ ·) with
        | none => it.next
        | some byte =>
          let below := { it with
            currentKey := it.currentKey ++ [byte]
            nodes := (.inner gate type keys children, byte) :: it.nodes }
          if keyByte < byte then (findMinimum (children byte) below).map ((true, ·))
          else lowerBound key equal (children byte) (depth + 1) below

/-- The loop of `Scan` over the bytes of a leaf node: whether there are not too many row ids. -/
def scanBytes (maxCount : ℕ) (rowId : List UInt8) : List UInt8 → Finset RowId → Bool × Finset RowId
  | [], rowIds => (true, rowIds)
  | byte :: bytes, rowIds =>
    if rowIds.card + 1 > maxCount then (false, rowIds)
    else scanBytes maxCount rowId bytes (insert (getRowId (rowId.set 7 byte)) rowIds)

/-- The row ids of the leaf that `Scan` is at. -/
def scanLeaf (it : Iterator) (maxCount : ℕ) (rowIds : Finset RowId) : Option (Bool × Finset RowId) :=
  match it.lastLeaf with
  | .inlined rowId =>
    if rowIds.card + 1 > maxCount then some (false, rowIds) else some (true, insert rowId rowIds)
  | .leafNode _ _ bytes => some (scanBytes maxCount it.rowId bytes rowIds)
  | _ => none

/-- The loop of `Scan`, for at most a number of leaves. An empty upper bound is none. -/
def scan (upperBound : List UInt8) (maxCount : ℕ) (equal : Bool) :
    ℕ → Iterator → Finset RowId → Option (Bool × Finset RowId)
  | 0, _, _ => none
  | leaves + 1, it, rowIds =>
    if upperBound ≠ [] ∧ (it.status = false ∨ it.enteredNestedLeaf) ∧ it.greaterThan upperBound equal then
      some (true, rowIds)
    else
      match it.scanLeaf maxCount rowIds with
      | none => none
      | some (false, rowIds) => some (false, rowIds)
      | some (true, rowIds) =>
        match { it with enteredNestedLeaf := false }.next with
        | none => none
        | some (false, _) => some (true, rowIds)
        | some (true, it) => scan upperBound maxCount equal leaves it rowIds

/-- `Scan` from where `LowerBound` went to, unless there is no such leaf. -/
def scanFrom (upperBound : List UInt8) (maxCount : ℕ) (equal : Bool) (leaves : ℕ) (rowIds : Finset RowId) :
    Option (Bool × Iterator) → Option (Bool × Finset RowId)
  | none => none
  | some (false, _) => some (true, rowIds)
  | some (true, it) => scan upperBound maxCount equal leaves it rowIds

end Iterator

/-! ## Searches -/

/-- The number of leaves of a tree, each of which a scan visits once. -/
def leafCount : Node → ℕ
  | .empty => 0
  | .inlined _ => 1
  | .leafNode _ _ _ => 1
  | .prefixNode _ _ child => leafCount child
  | .inner _ _ keys children => (keys.map fun byte => leafCount (children byte)).sum

/-- `ART::SearchEqual`. -/
def searchEqual (tree : Node) (key : List UInt8) (maxCount : ℕ) (rowIds : Finset RowId) :
    Option (Bool × Finset RowId) :=
  match lookup key tree 0 with
  | none => none
  | some none => some (true, rowIds)
  | some (some leaf) =>
    (Iterator.findMinimum leaf .new).bind fun it =>
      Iterator.scan [] maxCount false (leafCount leaf) it rowIds

/-- `ART::SearchGreater`. -/
def searchGreater (tree : Node) (key : List UInt8) (equal : Bool) (maxCount : ℕ)
    (rowIds : Finset RowId) : Option (Bool × Finset RowId) :=
  if tree.isEmpty then some (true, rowIds)
  else
    Iterator.scanFrom [] maxCount false (leafCount tree) rowIds (Iterator.lowerBound key equal tree 0 .new)

/-- `ART::SearchLess`. -/
def searchLess (tree : Node) (upperBound : List UInt8) (equal : Bool) (maxCount : ℕ)
    (rowIds : Finset RowId) : Option (Bool × Finset RowId) :=
  if tree.isEmpty then some (true, rowIds)
  else
    match Iterator.findMinimum tree .new with
    | none => none
    | some it =>
      if it.greaterThan upperBound equal then some (true, rowIds)
      else Iterator.scan upperBound maxCount equal (leafCount tree) it rowIds

/-- `ART::SearchCloseRange`. -/
def searchCloseRange (tree : Node) (lowerBound upperBound : List UInt8) (leftEqual rightEqual : Bool)
    (maxCount : ℕ) (rowIds : Finset RowId) : Option (Bool × Finset RowId) :=
  Iterator.scanFrom upperBound maxCount rightEqual (leafCount tree) rowIds
    (Iterator.lowerBound lowerBound leftEqual tree 0 .new)

end Art

end WfOpt

import WfOpt.Lib.OrderedCode
import WfOpt.Sort.Key

/-!
# The format of sort keys

A sort key (`create_sort_key`) is a list of bytes for a row of values, of integer types, boolean, strings or nested
ones. Each value starts with a byte that tells whether it is `NULL`, which depends on the order of `NULL`s; for a
descending order, all other bytes are flipped. How keys are written for vectors of rows is in
`WfOpt.Sort.KeyVectors`.
-/

namespace WfOpt

open List

/-! ## Types and values -/

/-- The widths of the integer types. -/
inductive IntegerWidth
  | w8
  | w16
  | w32
  | w64
  | w128
  deriving DecidableEq, Repr

/-- The number of bytes. -/
def IntegerWidth.bytes : IntegerWidth → ℕ
  | w8 => 1
  | w16 => 2
  | w32 => 4
  | w64 => 8
  | w128 => 16

/-- The types of a constant size (`TypeIsConstantSize`). -/
inductive FixedType
  | bool
  | unsigned (width : IntegerWidth)
  | signed (width : IntegerWidth)
  deriving DecidableEq, Repr

namespace FixedType

/-- `GetTypeIdSize`. -/
def size : FixedType → ℕ
  | bool => 1
  | unsigned width => width.bytes
  | signed width => width.bytes

/-- The values of a type. -/
def Value : FixedType → Type
  | bool => Bool
  | unsigned width => BitVec (8 * width.bytes)
  | signed width => BitVec (8 * width.bytes)

/-- The number a value stands for. -/
def toInt : (t : FixedType) → t.Value → ℤ
  | bool, b => (b : Bool).toNat
  | unsigned width, v => (v : BitVec (8 * width.bytes)).toNat
  | signed width, v => (v : BitVec (8 * width.bytes)).toInt

end FixedType

mutual

/-- The types of sort columns. -/
inductive SortType
  | fixed (t : FixedType)
  | varchar
  | blob
  | struct (children : SortTypes)
  | list (child : SortType)
  | array (child : SortType) (size : ℕ)

/-- The types of the fields of a struct. -/
inductive SortTypes
  | nil
  | cons (head : SortType) (tail : SortTypes)

end

mutual

/-- The values of a type other than `NULL`. A string is valid UTF-8. -/
def Payload : SortType → Type
  | .fixed t => t.Value
  | .varchar => String
  | .blob => List UInt8
  | .struct ts => Payloads ts
  | .list t => List (Option (Payload t))
  | .array t n => { l : List (Option (Payload t)) // l.length = n }

/-- The fields of a struct. -/
def Payloads : SortTypes → Type
  | .nil => Unit
  | .cons t ts => Option (Payload t) × Payloads ts

end

/-! ## The order of values -/

/-- The bytes of a string. -/
def stringBytes (s : String) : List UInt8 := s.toByteArray.data.toList

/-- The order of values with `NULL`s last. -/
def nullsLastLt {α : Type*} (lt : α → α → Prop) : Option α → Option α → Prop
  | none, _ => False
  | some _, none => True
  | some x, some y => lt x y

mutual

/-- The ascending order of values: strings by their bytes, structs by their fields, lists by their elements, with
    `NULL`s last. -/
def payloadLt : (t : SortType) → Payload t → Payload t → Prop
  | .fixed t, x, y => t.toInt x < t.toInt y
  | .varchar, x, y => stringBytes x < stringBytes y
  | .blob, x, y => (show List UInt8 from x) < (show List UInt8 from y)
  | .struct ts, x, y => payloadsLt ts x y
  | .list t, x, y => OrderedCode.listLt (nullsLastLt (payloadLt t)) True x y
  | .array t _, x, y => OrderedCode.listLt (nullsLastLt (payloadLt t)) True x.1 y.1

/-- The order of the fields of structs, the first ones first. -/
def payloadsLt : (ts : SortTypes) → Payloads ts → Payloads ts → Prop
  | .nil, _, _ => False
  | .cons t ts, x, y =>
    nullsLastLt (payloadLt t) x.1 y.1 ∨ (x.1 = y.1 ∧ payloadsLt ts x.2 y.2)

end

/-- A relation, or the reverse of it. -/
def OrderType.directed {α : Type*} (d : OrderType) (lt : α → α → Prop) (x y : α) : Prop := match d with
  | .ascending => lt x y
  | .descending => lt y x

/-- The order of a column: the direction is for the values other than `NULL`. -/
def columnLt {α : Type*} (m : OrderModifiers) (lt : α → α → Prop) : Option α → Option α → Prop
  | none, none => False
  | none, some _ => m.nullType = .nullsFirst
  | some _, none => m.nullType = .nullsLast
  | some x, some y => m.orderType.directed lt x y

/-- The sort columns: their types, and their modifiers. -/
abbrev SortColumns := List (SortType × OrderModifiers)

/-- The values of a row in the sort columns. -/
def SortRow : SortColumns → Type
  | [] => Unit
  | c :: cols => Option (Payload c.1) × SortRow cols

/-- `ORDER BY`: the first column in which the rows differ decides. -/
def orderByLt : (cols : SortColumns) → SortRow cols → SortRow cols → Prop
  | [], _, _ => False
  | c :: cols, x, y => columnLt c.2 (payloadLt c.1) x.1 y.1 ∨ (x.1 = y.1 ∧ orderByLt cols x.2 y.2)

/-! ## The bytes of values -/

/-- The bytes of an integer, the most significant one first: `Store(BSwap(x))`. -/
def bigEndian : ℕ → ℕ → List UInt8
  | 0, _ => []
  | n + 1, x => UInt8.ofNat (x / 256 ^ n) :: bigEndian n x

/-- `FlipSign`, of the first byte. -/
def flipSign : List UInt8 → List UInt8
  | [] => []
  | b :: l => (b ^^^ 128) :: l

/-- `Radix::EncodeSigned`. -/
def encodeSignedData (n x : ℕ) : List UInt8 := flipSign (bigEndian n x)

/-- `Radix::EncodeData`. An integer of 128 bits is written as its upper and its lower half. -/
def encodeData : (t : FixedType) → t.Value → List UInt8
  | .bool, b => [bif b then 1 else 0]
  | .unsigned .w128, v =>
    bigEndian 8 ((v : BitVec 128).extractLsb' 64 64).toNat ++ bigEndian 8 ((v : BitVec 128).extractLsb' 0 64).toNat
  | .unsigned width, v => bigEndian width.bytes (v : BitVec (8 * width.bytes)).toNat
  | .signed .w128, v =>
    encodeSignedData 8 ((v : BitVec 128).extractLsb' 64 64).toNat ++
      bigEndian 8 ((v : BitVec 128).extractLsb' 0 64).toNat
  | .signed width, v => encodeSignedData width.bytes (v : BitVec (8 * width.bytes)).toNat

/-- `SortKeyVarcharOperator::Encode`. -/
def encodeVarchar (data : List UInt8) : List UInt8 := data.map (· + 1) ++ [0]

/-- `SortKeyBlobOperator::Encode`. -/
def encodeBlob (data : List UInt8) : List UInt8 := data.flatMap (fun b => if b ≤ 1 then [1, b] else [b]) ++ [0]

/-- The bytes are flipped for a descending order. -/
def OrderType.flipBytes (d : OrderType) (bytes : List UInt8) : List UInt8 := match d with
  | .ascending => bytes
  | .descending => bytes.map (~~~ ·)

/-- `LIST_DELIMITER`, which is flipped for a descending order. -/
def OrderType.listDelimiter : OrderType → UInt8
  | .ascending => 0
  | .descending => ~~~0

namespace OrderModifiers

/-- `child_modifiers`: within nested types, the order of `NULL`s depends on the direction. -/
def child (m : OrderModifiers) : OrderModifiers := ⟨m.orderType, match m.orderType with
    | .ascending => .nullsLast
    | .descending => .nullsFirst⟩

end OrderModifiers

/-- The bytes of a value that may be `NULL`, given those after the first. -/
def encodeOption {α : Type*} (m : OrderModifiers) (null : List UInt8) (code : α → List UInt8) : Option α → List UInt8
  | none => UInt8.ofNat m.nullByte :: null
  | some x => UInt8.ofNat m.validByte :: code x

mutual

/-- The bytes after the first, of a value of a column with the modifiers `m`. -/
def encodePayload (m : OrderModifiers) : (t : SortType) → Payload t → List UInt8
  | .fixed t, x => m.orderType.flipBytes (encodeData t x)
  | .varchar, x => m.orderType.flipBytes (encodeVarchar (stringBytes x))
  | .blob, x => m.orderType.flipBytes (encodeBlob x)
  | .struct ts, x => encodePayloads m.child ts x
  | .list t, x =>
    flatMap (encodeOption m.child (encodeNull m.child t) (encodePayload m.child t)) x ++ [m.orderType.listDelimiter]
  | .array t _, x =>
    flatMap (encodeOption m.child (encodeNull m.child t) (encodePayload m.child t)) x.1 ++
      [m.orderType.listDelimiter]

/-- The bytes of the fields of a struct. -/
def encodePayloads (m : OrderModifiers) : (ts : SortTypes) → Payloads ts → List UInt8
  | .nil, _ => []
  | .cons t ts, x =>
    encodeOption m (encodeNull m t) (encodePayload m t) x.1 ++ encodePayloads m ts x.2

/-- The other bytes of a `NULL`: the fields of a struct and the elements of an array are written nevertheless. -/
def encodeNull (m : OrderModifiers) : SortType → List UInt8
  | .struct ts => encodeNulls m.child ts
  | .array t n =>
    (replicate n (UInt8.ofNat m.child.nullByte :: encodeNull m.child t)).flatten ++ [m.orderType.listDelimiter]
  | _ => []

/-- The bytes of fields that are all `NULL`. -/
def encodeNulls (m : OrderModifiers) : SortTypes → List UInt8
  | .nil => []
  | .cons t ts => (UInt8.ofNat m.nullByte :: encodeNull m t) ++ encodeNulls m ts

end

/-- The bytes of a value. -/
def encodeValue (m : OrderModifiers) (t : SortType) (x : Option (Payload t)) : List UInt8 :=
  encodeOption m (encodeNull m t) (encodePayload m t) x

/-- The sort key of a row. -/
def encodeRow : (cols : SortColumns) → SortRow cols → List UInt8
  | [], _ => []
  | c :: cols, x => encodeValue c.2 c.1 x.1 ++ encodeRow cols x.2

end WfOpt

import WfOpt.Sort.KeyOrder

/-!
# Layouts of sort keys

The columns of a window sort are those of `PARTITION BY`, followed by those of `ORDER BY`. If they are all of a
constant size, so that a key has 9 to 16 bytes, and no payload is sorted along, keys are of type
`NO_PAYLOAD_FIXED_16` (`KeyLayout.sortKeyType`). Merge pruning takes the first five bytes of these for the
partition, and the next five for the order value: they separate the rows as the columns do if and only if the
partition takes the first five bytes, and the key has ten (`KeyLayout.separates_iff`).
-/

namespace WfOpt

open List

/-! ## Types -/

/-- The types of floating point numbers. -/
inductive FloatWidth
  | float
  | double
  deriving DecidableEq, Repr

namespace FloatWidth

def bytes : FloatWidth → ℕ
  | float => 4
  | double => 8

/-- The sign bit. -/
def sign : FloatWidth → ℕ
  | float => 2 ^ 31
  | double => 2 ^ 63

/-- The bits of infinity. Those of other numbers are less, up to the sign, and those of `NaN` are more. -/
def infinity : FloatWidth → ℕ
  | float => 255 * 2 ^ 23
  | double => 2047 * 2 ^ 52

/-- Whether numbers, given by their bits, are the same: there is one zero, and one `NaN`. -/
def Same (f : FloatWidth) (x y : ℕ) : Prop :=
  x = y ∨ (x % f.sign = 0 ∧ y % f.sign = 0) ∨ (f.infinity < x % f.sign ∧ f.infinity < y % f.sign)

/-- `Radix::EncodeFloat` and `Radix::EncodeDouble`. -/
def encode (f : FloatWidth) (x : ℕ) : ℕ := if x % f.sign = 0 then f.sign
  else if f.infinity < x % f.sign then 2 * f.sign - 1
  else if x = f.infinity then 2 * f.sign - 2
  else if x = f.sign + f.infinity then 0
  else if x < f.sign then x + f.sign
  else 2 * f.sign - 1 - x

theorem encode_lt (f : FloatWidth) {x : ℕ} (h : x < 256 ^ f.bytes) : f.encode x < 256 ^ f.bytes := by
  rw [encode]
  split_ifs <;> cases f <;> simp only [bytes, sign] at * <;> omega

/-- Numbers that are the same have the same code. -/
theorem encode_eq_iff (f : FloatWidth) {x y : ℕ} (hx : x < 256 ^ f.bytes) (hy : y < 256 ^ f.bytes) :
    f.encode x = f.encode y ↔ f.Same x y := by
  rw [encode, encode, Same]
  split_ifs
  all_goals
    constructor
    all_goals
      intro h
      cases f <;> simp only [bytes, sign, infinity] at * <;> omega

end FloatWidth

/-- The types of a constant size of at most eight bytes (and those of 128 bits). -/
inductive KeyType
  | fixed (t : FixedType)
  | floating (f : FloatWidth)
  deriving DecidableEq, Repr

namespace KeyType

/-- `GetTypeIdSize`. -/
def size : KeyType → ℕ
  | fixed t => t.size
  | floating f => f.bytes

/-- The values: a floating point number is given by its bits. -/
def Value : KeyType → Type
  | fixed t => t.Value
  | floating f => BitVec (8 * f.bytes)

/-- Whether values are the same. -/
def Same : (t : KeyType) → t.Value → t.Value → Prop
  | fixed _, x, y => x = y
  | floating f, x, y => f.Same (x : BitVec (8 * f.bytes)).toNat (y : BitVec (8 * f.bytes)).toNat

/-- `Radix::EncodeData`. -/
def encode : (t : KeyType) → t.Value → List UInt8
  | fixed t, x => encodeData t x
  | floating f, x => bigEndian f.bytes (f.encode (x : BitVec (8 * f.bytes)).toNat)

theorem size_pos (t : KeyType) : 0 < t.size := by
  cases t with
  | fixed t => cases t <;> first | exact Nat.one_pos | exact bytes_pos _
  | floating f => cases f <;> decide

theorem length_encode (t : KeyType) (x : t.Value) : (t.encode x).length = t.size := by
  cases t with
  | fixed t => exact length_encodeData t x
  | floating f => exact length_bigEndian f.bytes _

theorem encode_eq_iff (t : KeyType) (x y : t.Value) : t.encode x = t.encode y ↔ t.Same x y := by
  cases t with
  | fixed t => exact (orderedCode_encodeData t).eq_iff x y
  | floating f =>
    have hlt : ∀ v : BitVec (8 * f.bytes), v.toNat < 256 ^ f.bytes := by
      intro v
      rw [show 256 = 2 ^ 8 from rfl, ← pow_mul]
      exact v.isLt
    rw [Same, ← f.encode_eq_iff (hlt x) (hlt y), encode, encode]
    constructor
    · intro heq
      have hnumber := congrArg ofBigEndian heq
      rwa [ofBigEndian_bigEndian, ofBigEndian_bigEndian, Nat.mod_eq_of_lt (f.encode_lt (hlt x)),
        Nat.mod_eq_of_lt (f.encode_lt (hlt y))] at hnumber
    · intro heq
      rw [heq]

/-- The first byte of a value is not always the same. -/
theorem exists_head_ne (t : KeyType) : ∃ x y : t.Value, (t.encode x).head? ≠ (t.encode y).head? := by
  cases t with
  | fixed t =>
    cases t with
    | bool => exact ⟨false, true, by decide⟩
    | unsigned width | signed width => cases width <;> exact ⟨BitVec.ofNat _ 0, BitVec.allOnes _, by decide⟩
  | floating f =>
    -- the sign is in the first byte
    cases f with
    | float => exact ⟨BitVec.ofNat 32 1, BitVec.ofNat 32 (2 ^ 31 + 1), by decide⟩
    | double => exact ⟨BitVec.ofNat 64 1, BitVec.ofNat 64 (2 ^ 63 + 1), by decide⟩

/-- Some values differ in the last byte only. -/
theorem exists_last_ne (t : KeyType) : ∃ (x y : t.Value) (l : List UInt8) (a b : UInt8),
    t.encode x = l ++ [a] ∧ t.encode y = l ++ [b] ∧ ¬t.Same x y := by
  obtain ⟨x, y, hinit, hne⟩ : ∃ x y : t.Value,
      (t.encode x).dropLast = (t.encode y).dropLast ∧ t.encode x ≠ t.encode y := by
    cases t with
    | fixed t =>
      cases t with
      | bool => exact ⟨false, true, by decide⟩
      | unsigned width | signed width => cases width <;> exact ⟨BitVec.ofNat _ 0, BitVec.ofNat _ 1, by decide⟩
    | floating f =>
      cases f with
      | float => exact ⟨BitVec.ofNat 32 1, BitVec.ofNat 32 2, by decide⟩
      | double => exact ⟨BitVec.ofNat 64 1, BitVec.ofNat 64 2, by decide⟩
  have hlen : (t.encode x).length = (t.encode y).length := by
    rw [length_encode, length_encode]
  have hx : t.encode x ≠ [] := by
    intro hx
    rw [hx, length_nil] at hlen
    exact hne (hx.trans (length_eq_zero_iff.1 hlen.symm).symm)
  have hy : t.encode y ≠ [] := by
    intro hy
    rw [hy, length_nil] at hlen
    exact hx (length_eq_zero_iff.1 hlen)
  refine ⟨x, y, (t.encode x).dropLast, (t.encode x).getLast hx, (t.encode y).getLast hy,
    (dropLast_append_getLast hx).symm, ?_, fun h => hne ((t.encode_eq_iff x y).2 h)⟩
  rw [hinit]
  exact (dropLast_append_getLast hy).symm

end KeyType

/-! ## Columns -/

/-- A sort column, and whether it has `NULL`s. -/
structure KeyColumn where
  type : KeyType
  modifiers : OrderModifiers
  nullable : Bool

/-- The values of a row in columns. -/
def KeyRow : List KeyColumn → Type
  | [] => Unit
  | c :: cols => Option c.type.Value × KeyRow cols

namespace KeyColumn

variable (c : KeyColumn)

/-- `NULL`s are the same. -/
def Same : Option c.type.Value → Option c.type.Value → Prop
  | none, none => True
  | some x, some y => c.type.Same x y
  | _, _ => False

/-- The bytes of a value in a key. -/
def encode : Option c.type.Value → List UInt8 :=
  encodeOption c.modifiers [] fun x => c.modifiers.orderType.flipBytes (c.type.encode x)

/-- The number of bytes of a value, and of a `NULL` if there is one. -/
def width : ℕ := c.type.size + 1

def shortest : ℕ := if c.nullable then 1 else c.width

variable {c}

theorem length_flipBytes (d : OrderType) (l : List UInt8) : (d.flipBytes l).length = l.length := by
  cases d with
  | ascending => rfl
  | descending => exact length_map _

theorem flipBytes_injective (d : OrderType) : Function.Injective d.flipBytes := by
  cases d with
  | ascending => exact fun _ _ h => h
  | descending => exact map_injective_iff.2 strictAnti_complement.injective

theorem head?_flipBytes_eq_iff (d : OrderType) (l l' : List UInt8) :
    (d.flipBytes l).head? = (d.flipBytes l').head? ↔ l.head? = l'.head? := by
  cases d with
  | ascending => rfl
  | descending =>
    rw [OrderType.flipBytes, OrderType.flipBytes, head?_map, head?_map,
      (Option.map_injective strictAnti_complement.injective).eq_iff]

theorem flipBytes_append (d : OrderType) (l l' : List UInt8) :
    d.flipBytes (l ++ l') = d.flipBytes l ++ d.flipBytes l' := by
  cases d with
  | ascending => rfl
  | descending => exact map_append

theorem validByte_ne_nullByte (m : OrderModifiers) : UInt8.ofNat m.validByte ≠ UInt8.ofNat m.nullByte := by
  obtain ⟨d, n⟩ := m
  cases n <;> simp [OrderModifiers.validByte, OrderModifiers.nullByte]

theorem encode_none : c.encode none = [UInt8.ofNat c.modifiers.nullByte] := rfl

theorem encode_some (x : c.type.Value) : c.encode (some x) =
    UInt8.ofNat c.modifiers.validByte :: c.modifiers.orderType.flipBytes (c.type.encode x) := rfl

theorem length_encode_some (x : c.type.Value) : (c.encode (some x)).length = c.width := by
  rw [encode_some, length_cons, length_flipBytes, c.type.length_encode, width]

theorem encode_eq_iff (x y : Option c.type.Value) : c.encode x = c.encode y ↔ c.Same x y := by
  have hne := validByte_ne_nullByte c.modifiers
  cases x with
  | none =>
    cases y with
    | none => exact iff_of_true rfl trivial
    | some y => exact iff_of_false (fun h => hne (cons.inj h).1.symm) id
  | some x =>
    cases y with
    | none => exact iff_of_false (fun h => hne (cons.inj h).1) id
    | some y =>
      rw [encode_some, encode_some, cons_inj_right, (flipBytes_injective _).eq_iff, c.type.encode_eq_iff, Same]

theorem prefixFree_encode (x y : Option c.type.Value) : PrefixFree (c.encode x) (c.encode y) := by
  have hne := validByte_ne_nullByte c.modifiers
  have hhead : ∀ {a b : UInt8} {l l' : List UInt8}, a ≠ b → PrefixFree (a :: l) (b :: l') := by
    intro a b l l' hab
    exact ⟨fun h => absurd (cons_prefix_cons.1 h).1 hab, fun h => absurd (cons_prefix_cons.1 h).1 hab.symm⟩
  cases x with
  | none =>
    cases y with
    | none => exact .of_length_eq rfl
    | some y => exact hhead hne.symm
  | some x =>
    cases y with
    | none => exact hhead hne
    | some y => exact .of_length_eq (by rw [length_encode_some, length_encode_some])

end KeyColumn

/-! ## Rows -/

/-- The number of bytes of a row without `NULL`s. -/
def keyWidth (cols : List KeyColumn) : ℕ := (cols.map KeyColumn.width).sum

/-- The number of bytes of a row with `NULL`s wherever there may be some. -/
def shortestWidth (cols : List KeyColumn) : ℕ := (cols.map KeyColumn.shortest).sum

namespace KeyRow

/-- The row of no columns. -/
def nil : KeyRow [] := ()

/-- A row with a value for another column. -/
def cons {c : KeyColumn} {cols : List KeyColumn} (v : Option c.type.Value) (x : KeyRow cols) :
    KeyRow (c :: cols) := (v, x)

/-- The bytes of a row. -/
def bytes : {cols : List KeyColumn} → KeyRow cols → List UInt8
  | [], _ => []
  | c :: _, x => c.encode x.1 ++ bytes x.2

/-- Rows agree on all columns. -/
def Agree : {cols : List KeyColumn} → KeyRow cols → KeyRow cols → Prop
  | [], _, _ => True
  | c :: _, x, y => c.Same x.1 y.1 ∧ Agree x.2 y.2

/-- A row has `NULL`s only where there may be some. -/
def Conforms : {cols : List KeyColumn} → KeyRow cols → Prop
  | [], _ => True
  | c :: _, x => (x.1 = none → c.nullable = true) ∧ Conforms x.2

variable {c : KeyColumn} {cols : List KeyColumn}

theorem bytes_cons (v : Option c.type.Value) (x : KeyRow cols) : (cons v x).bytes = c.encode v ++ x.bytes := rfl

theorem Conforms.some {x : KeyRow cols} (h : x.Conforms) (v : c.type.Value) : (cons (some v) x).Conforms :=
  ⟨fun hv => absurd hv (Option.some_ne_none v), h⟩

theorem keyWidth_cons : keyWidth (c :: cols) = c.width + keyWidth cols := by
  rw [keyWidth, keyWidth, map_cons, sum_cons]

theorem shortestWidth_cons : shortestWidth (c :: cols) = c.shortest + shortestWidth cols := by
  rw [shortestWidth, shortestWidth, map_cons, sum_cons]

theorem prefixFree_bytes (cols : List KeyColumn) (x y : KeyRow cols) : PrefixFree (x.bytes) (y.bytes) := by
  induction cols with
  | nil => exact .of_length_eq rfl
  | cons c cols ih => exact (c.prefixFree_encode x.1 y.1).append (ih x.2 y.2)

theorem bytes_eq_iff (cols : List KeyColumn) (x y : KeyRow cols) : x.bytes = y.bytes ↔ x.Agree y := by
  induction cols with
  | nil => exact iff_of_true rfl trivial
  | cons c cols ih =>
    rw [bytes, bytes, append_eq_append_iff_of_prefixFree (c.prefixFree_encode x.1 y.1), c.encode_eq_iff, ih, Agree]

theorem length_bytes {cols : List KeyColumn} {x : KeyRow cols} (h : x.Conforms) :
    shortestWidth cols ≤ x.bytes.length ∧ x.bytes.length ≤ keyWidth cols := by
  induction cols with
  | nil => exact ⟨le_rfl, le_rfl⟩
  | cons c cols ih =>
    have hrst := ih h.2
    have hval : c.shortest ≤ (c.encode x.1).length ∧ (c.encode x.1).length ≤ c.width := by
      cases hx : x.1 with
      | none =>
        rw [KeyColumn.encode_none, KeyColumn.shortest, if_pos (h.1 hx), KeyColumn.width, length_singleton]
        omega
      | some v =>
        rw [KeyColumn.length_encode_some, KeyColumn.shortest, KeyColumn.width]
        split_ifs <;> omega
    rw [shortestWidth_cons, keyWidth_cons, bytes, length_append]
    omega

/-- There are rows without `NULL`s, which are the longest. -/
theorem exists_longest (cols : List KeyColumn) : ∃ x : KeyRow cols, x.Conforms ∧ x.bytes.length = keyWidth cols := by
  induction cols with
  | nil => exact ⟨nil, trivial, rfl⟩
  | cons c cols ih =>
    obtain ⟨x, hx, hlen⟩ := ih
    obtain ⟨v, -⟩ := c.type.exists_head_ne
    refine ⟨cons (some v) x, hx.some v, ?_⟩
    rw [bytes_cons, length_append, KeyColumn.length_encode_some, hlen, keyWidth_cons]

/-- There are rows with all the `NULL`s. -/
theorem exists_shortest (cols : List KeyColumn) :
    ∃ x : KeyRow cols, x.Conforms ∧ x.bytes.length = shortestWidth cols := by
  induction cols with
  | nil => exact ⟨nil, trivial, rfl⟩
  | cons c cols ih =>
    obtain ⟨x, hx, hlen⟩ := ih
    obtain ⟨v, -⟩ := c.type.exists_head_ne
    by_cases hnl : c.nullable = true
    · refine ⟨cons none x, ⟨fun _ => hnl, hx⟩, ?_⟩
      rw [bytes_cons, length_append, KeyColumn.encode_none, hlen, shortestWidth_cons,
        KeyColumn.shortest, if_pos hnl, length_singleton]
    · refine ⟨cons (some v) x, hx.some v, ?_⟩
      rw [bytes_cons, length_append, KeyColumn.length_encode_some, hlen, shortestWidth_cons,
        KeyColumn.shortest, if_neg hnl]

/-- Some rows differ in their last byte only. -/
theorem exists_last_ne {cols : List KeyColumn} (h : cols ≠ []) :
    ∃ (x y : KeyRow cols) (l : List UInt8) (a b : UInt8), (x.Conforms ∧ x.bytes = l ++ [a]) ∧
      (y.Conforms ∧ y.bytes = l ++ [b]) ∧ l.length + 1 = keyWidth cols ∧ ¬x.Agree y := by
  induction cols with
  | nil => exact absurd rfl h
  | cons c cols ih =>
    cases cols with
    | nil =>
      obtain ⟨v, w, l, a, b, hv, hw, hne⟩ := c.type.exists_last_ne
      have hlen := c.type.length_encode v
      rw [hv, length_append, length_singleton] at hlen
      obtain ⟨l', hl'⟩ : ∃ l', l' = UInt8.ofNat c.modifiers.validByte ::
        c.modifiers.orderType.flipBytes l := ⟨_, rfl⟩
      obtain ⟨a', ha'⟩ : ∃ a', c.modifiers.orderType.flipBytes [a] = [a'] :=
        length_eq_one_iff.1 (KeyColumn.length_flipBytes _ _)
      obtain ⟨b', hb'⟩ : ∃ b', c.modifiers.orderType.flipBytes [b] = [b'] :=
        length_eq_one_iff.1 (KeyColumn.length_flipBytes _ _)
      have hnil : nil.Conforms := trivial
      refine ⟨cons (some v) nil, cons (some w) nil, l', a', b', ⟨hnil.some v, ?_⟩, ⟨hnil.some w, ?_⟩, ?_,
        fun h => hne h.1⟩
      · rw [bytes_cons, bytes, append_nil, KeyColumn.encode_some, hv, KeyColumn.flipBytes_append,
          ha', hl', cons_append]
      · rw [bytes_cons, bytes, append_nil, KeyColumn.encode_some, hw, KeyColumn.flipBytes_append,
          hb', hl', cons_append]
      · rw [hl', length_cons, KeyColumn.length_flipBytes, hlen, keyWidth, map_singleton,
          sum_singleton, KeyColumn.width]
    | cons c' cols =>
      obtain ⟨x, y, l, a, b, ⟨hx, hxl⟩, ⟨hy, hyl⟩, hlen, hne⟩ := ih (cons_ne_nil _ _)
      obtain ⟨v, -⟩ := c.type.exists_head_ne
      refine ⟨cons (some v) x, cons (some v) y, c.encode (some v) ++ l, a, b, ⟨hx.some v, ?_⟩,
        ⟨hy.some v, ?_⟩, ?_, fun h => hne h.2⟩
      · rw [bytes_cons, hxl, append_assoc]
      · rw [bytes_cons, hyl, append_assoc]
      · rw [length_append, KeyColumn.length_encode_some, Nat.add_assoc, hlen]
        exact keyWidth_cons.symm

/-- Some rows differ in the byte after the first. -/
theorem exists_second_ne {cols : List KeyColumn} (h : cols ≠ []) : ∃ (x y : KeyRow cols) (a b : UInt8),
    (x.Conforms ∧ x.bytes[1]? = some a) ∧ (y.Conforms ∧ y.bytes[1]? = some b) ∧ a ≠ b := by
  cases cols with
  | nil => exact absurd rfl h
  | cons c cols =>
    obtain ⟨rest, hrst, -⟩ := exists_longest cols
    obtain ⟨v, w, hne⟩ := c.type.exists_head_ne
    have hsnd : ∀ u : c.type.Value, ∃ b, (cons (some u) rest).bytes[1]? = some b ∧
        (c.modifiers.orderType.flipBytes (c.type.encode u)).head? = some b := by
      intro u
      have hpos : 0 < (c.modifiers.orderType.flipBytes (c.type.encode u)).length := by
        rw [KeyColumn.length_flipBytes, c.type.length_encode]
        exact c.type.size_pos
      refine ⟨_, ?_, head?_eq_some_head (ne_nil_of_length_pos hpos)⟩
      rw [bytes_cons, KeyColumn.encode_some, cons_append, getElem?_cons_succ,
        getElem?_append_left hpos, ← head?_eq_getElem?]
      exact head?_eq_some_head _
    obtain ⟨a, ha, hav⟩ := hsnd v
    obtain ⟨b, hb, hbw⟩ := hsnd w
    refine ⟨cons (some v) rest, cons (some w) rest, a, b, ⟨hrst.some v, ha⟩, ⟨hrst.some w, hb⟩, ?_⟩
    rintro rfl
    exact hne ((KeyColumn.head?_flipBytes_eq_iff _ _ _).1 (hav.trans hbw.symm))

/-- If the first column has `NULL`s, some rows differ in the first byte. -/
theorem exists_first_ne (h : c.nullable = true) : ∃ (x y : KeyRow (c :: cols)) (a b : UInt8),
    (x.Conforms ∧ x.bytes[0]? = some a) ∧ (y.Conforms ∧ y.bytes[0]? = some b) ∧ a ≠ b := by
  obtain ⟨rest, hrst, -⟩ := exists_longest cols
  obtain ⟨v, -⟩ := c.type.exists_head_ne
  exact ⟨cons (some v) rest, cons none rest, _, _, ⟨hrst.some v, rfl⟩, ⟨⟨fun _ => h, hrst⟩, rfl⟩,
    KeyColumn.validByte_ne_nullByte c.modifiers⟩

/-- Otherwise it is always the same. -/
theorem take_one (h : c.nullable = false) {x : KeyRow (c :: cols)} (hx : x.Conforms) (z : List UInt8) :
    (x.bytes ++ z).take 1 = [UInt8.ofNat c.modifiers.validByte] := by
  obtain ⟨v, rest⟩ := x
  cases v with
  | none => exact absurd (hx.1 rfl) (by rw [h]; exact Bool.false_ne_true)
  | some v => rfl

end KeyRow

/-! ## Keys -/

/-- `SortKeyType` -/
inductive SortKeyType
  | noPayloadFixed8
  | noPayloadFixed16
  | noPayloadFixed24
  | noPayloadFixed32
  | noPayloadVariable32
  | payloadFixed16
  | payloadFixed24
  | payloadFixed32
  | payloadVariable32
  deriving DecidableEq, Repr

/-- The columns of a window sort. Those of `PARTITION BY` all have the same modifiers. -/
structure KeyLayout where
  partitionTypes : List (KeyType × Bool)
  orders : List KeyColumn

namespace KeyLayout

variable (l : KeyLayout)

/-- `GenerateOrderings` -/
def partitions : List KeyColumn := l.partitionTypes.map fun p => ⟨p.1, partitionModifiers, p.2⟩

/-- `sort_width` -/
def sortWidth : ℕ := keyWidth l.partitions + keyWidth l.orders

/-- `GetSortKeyType`, as set by `TupleDataLayout::Initialize`. Keys of up to eight bytes are of type
    `BIGINT`. -/
def sortKeyType (hasPayload : Bool) : SortKeyType :=
  let rowWidth := (if l.sortWidth ≤ 8 then 8 else l.sortWidth) + if hasPayload then 8 else 0
  if rowWidth ≤ 8 then .noPayloadFixed8
  else if rowWidth ≤ 16 then if hasPayload then .payloadFixed16 else .noPayloadFixed16
  else if rowWidth ≤ 24 then if hasPayload then .payloadFixed24 else .noPayloadFixed24
  else if rowWidth ≤ 32 then if hasPayload then .payloadFixed32 else .noPayloadFixed32
  else if hasPayload then .payloadVariable32 else .noPayloadVariable32

/-- A row: its values for `PARTITION BY` and `ORDER BY`. -/
abbrev KeyedRow := KeyRow l.partitions × KeyRow l.orders

/-- The row is one of the table. -/
def Conforms (x : l.KeyedRow) : Prop := x.1.Conforms ∧ x.2.Conforms

/-- `create_sort_key` -/
def keyBytes (x : l.KeyedRow) : List UInt8 := x.1.bytes ++ x.2.bytes

/-- The key of a row. -/
def key (x : l.KeyedRow) : SortKey16 := .construct ((l.keyBytes x).map UInt8.toNat)

/-- What merge pruning takes for the partition and the order value separates the rows as the columns
    do. -/
def Separates : Prop := ∀ x y : l.KeyedRow, l.Conforms x → l.Conforms y →
  ((l.key x).extractPartition = (l.key y).extractPartition ↔ x.1.Agree y.1) ∧
    (x.1.Agree y.1 → ((l.key x).extractOrderBy = (l.key y).extractOrderBy ↔ x.2.Agree y.2))

/-- The partition takes the first five bytes, and the key has ten. -/
def Fits : Prop := keyWidth l.partitions ≤ 5 ∧ l.sortWidth ≤ 10 ∧ (shortestWidth l.partitions = 5 ∨
      shortestWidth l.partitions = 4 ∧ ∀ c ∈ l.orders.head?, c.nullable = false)

variable {l}

theorem sortKeyType_eq_iff {hasPayload : Bool} : l.sortKeyType hasPayload = .noPayloadFixed16 ↔
      hasPayload = false ∧ 8 < l.sortWidth ∧ l.sortWidth ≤ 16 := by
  cases hasPayload with
  | false =>
    rw [sortKeyType]
    simp only [Bool.false_eq_true, if_false, true_and]
    split_ifs <;> simp only [false_iff, true_iff] <;> omega
  | true =>
    rw [sortKeyType]
    simp only
    split_ifs <;> simp

end KeyLayout

/-! ## What is extracted -/

/-- The bytes of a key, filled up with zeros. -/
def filledUp (bytes : List UInt8) : List UInt8 := bytes ++ replicate (16 - bytes.length) 0

theorem length_filledUp {bytes : List UInt8} (h : bytes.length ≤ 16) : (filledUp bytes).length = 16 := by
  rw [filledUp, length_append, length_replicate]
  omega

theorem map_toNat_injective : Function.Injective (map UInt8.toNat) :=
  map_injective_iff.2 fun _ _ => UInt8.toNat_inj.1

theorem toNat_mem_lt {bytes : List UInt8} : ∀ b ∈ bytes.map UInt8.toNat, b < 256 := by
  intro b hb
  obtain ⟨c, -, rfl⟩ := mem_map.1 hb
  exact c.toNat_lt

/-- Lists of bytes of the same length are told apart by their numbers. -/
theorem ofBytes_inj {l l' : List ℕ} (hlen : l.length = l'.length) (hl : ∀ b ∈ l, b < 256)
    (hl' : ∀ b ∈ l', b < 256) (h : ofBytes l = ofBytes l') : l = l' := by
  induction l using reverseRecOn generalizing l' with
  | nil => exact (length_eq_zero_iff.1 hlen.symm).symm
  | append_singleton l b ih =>
    cases l' using reverseRecOn with
    | nil => exact absurd hlen (by simp)
    | append_singleton l' b' =>
      have hb := hl b (by simp)
      have hb' := hl' b' (by simp)
      have hsing : ∀ c : ℕ, ofBytes [c] = c := fun c => by simp [ofBytes]
      rw [ofBytes_append, ofBytes_append, hsing, hsing, length_singleton, pow_one, length_singleton, pow_one] at h
      rw [length_append, length_append, length_singleton, length_singleton] at hlen
      have hrst : l = l' := ih (by omega) (fun c hc => hl c (mem_append_left _ hc))
        (fun c hc => hl' c (mem_append_left _ hc)) (by omega)
      rw [hrst, show b = b' by omega]

theorem ofBytes_toNat_eq_iff {l l' : List UInt8} (h : l.length = l'.length) :
    ofBytes (l.map UInt8.toNat) = ofBytes (l'.map UInt8.toNat) ↔ l = l' := by
  constructor
  · intro heq
    refine map_toNat_injective (ofBytes_inj ?_ toNat_mem_lt toNat_mem_lt heq)
    rw [length_map, length_map, h]
  · rintro rfl
    rfl

namespace SortKey16

/-- The words of a key: five bytes, three, two and six. -/
theorem construct_toNat {bytes : List UInt8} (h : bytes.length ≤ 16) :
    (construct (bytes.map UInt8.toNat)).extractPartition = ofBytes (((filledUp bytes).take 5).map UInt8.toNat) ∧
      (construct (bytes.map UInt8.toNat)).extractOrderBy =
        ofBytes ((((filledUp bytes).drop 5).take 5).map UInt8.toNat) := by
  have hlen := length_filledUp h
  have hfill : bytes.map UInt8.toNat ++ replicate (16 - (bytes.map UInt8.toNat).length) 0 =
      (filledUp bytes).map UInt8.toNat := by
    rw [filledUp, map_append, map_replicate, length_map]
    rfl
  obtain ⟨f, hf⟩ : ∃ f, f = filledUp bytes := ⟨_, rfl⟩
  rw [← hf] at hlen hfill ⊢
  have hwds : construct (bytes.map UInt8.toNat) =
      ⟨ofBytes ((f.take 8).map UInt8.toNat), ofBytes ((f.drop 8).map UInt8.toNat)⟩ := by
    rw [construct, hfill, map_take, map_drop]
  have hbs : ∀ (l : List UInt8) (n : ℕ), l.length = n → ofBytes (l.map UInt8.toNat) < 256 ^ n := by
    rintro l _ rfl
    have hlt := ofBytes_lt (@toNat_mem_lt l)
    rwa [length_map] at hlt
  have hfst : f.take 8 = f.take 5 ++ (f.drop 5).take 3 := by
    rw [← take_add]
  have hsnd : f.drop 8 = (f.drop 8).take 2 ++ f.drop 10 := by
    have hspl := take_append_drop 2 (f.drop 8)
    rw [drop_drop] at hspl
    exact hspl.symm
  have hmid : (f.drop 5).take 5 = (f.drop 5).take 3 ++ (f.drop 8).take 2 := by
    have hspl := take_add (l := f.drop 5) (i := 3) (j := 2)
    rwa [drop_drop] at hspl
  have hthree := hbs ((f.drop 5).take 3) 3 (by rw [length_take, length_drop, hlen]; rfl)
  have hsix := hbs (f.drop 10) 6 (by rw [length_drop, hlen])
  have height := hbs (f.drop 8) 8 (by rw [length_drop, hlen])
  have hpart₀ : ofBytes ((f.take 8).map UInt8.toNat) =
      ofBytes ((f.take 5).map UInt8.toNat) * 2 ^ 24 + ofBytes (((f.drop 5).take 3).map UInt8.toNat) := by
    rw [hfst, map_append, ofBytes_append, length_map, length_take, length_drop, hlen]
    rfl
  have hpart₁ : ofBytes ((f.drop 8).map UInt8.toNat) =
      ofBytes (((f.drop 8).take 2).map UInt8.toNat) * 2 ^ 48 + ofBytes ((f.drop 10).map UInt8.toNat) := by
    conv_lhs => rw [hsnd]
    rw [map_append, ofBytes_append, length_map, length_drop, hlen]
    rfl
  have hord : ofBytes (((f.drop 5).take 5).map UInt8.toNat) =
      ofBytes (((f.drop 5).take 3).map UInt8.toNat) * 2 ^ 16 + ofBytes (((f.drop 8).take 2).map UInt8.toNat) := by
    rw [hmid, map_append, ofBytes_append, length_map, length_take, length_drop, hlen]
    rfl
  rw [hwds, extractPartition_eq, extractOrderBy_eq (by dsimp only; omega)]
  dsimp only
  constructor
  · omega
  · omega

end SortKey16

namespace KeyLayout

variable {l : KeyLayout} {x y : l.KeyedRow}

/-- The padding of a key. -/
def padding (x : l.KeyedRow) : List UInt8 := replicate (16 - (l.keyBytes x).length) 0

theorem filledUp_keyBytes (x : l.KeyedRow) : filledUp (l.keyBytes x) = x.1.bytes ++ (x.2.bytes ++ padding x) := by
  rw [filledUp, padding, keyBytes, append_assoc]

theorem length_keyBytes (h : l.Conforms x) : (l.keyBytes x).length ≤ l.sortWidth := by
  have hpart := KeyRow.length_bytes h.1
  have hord := KeyRow.length_bytes h.2
  rw [keyBytes, length_append, sortWidth]
  omega

section Extract

variable (hwidth : l.sortWidth ≤ 16) (hx : l.Conforms x) (hy : l.Conforms y)

include hwidth hx hy

theorem extractPartition_eq_iff : (l.key x).extractPartition = (l.key y).extractPartition ↔
    (filledUp (l.keyBytes x)).take 5 = (filledUp (l.keyBytes y)).take 5 := by
  have hlx := (length_keyBytes hx).trans hwidth
  have hly := (length_keyBytes hy).trans hwidth
  rw [key, key, (SortKey16.construct_toNat hlx).1, (SortKey16.construct_toNat hly).1, ofBytes_toNat_eq_iff]
  rw [length_take, length_take, length_filledUp hlx, length_filledUp hly]

theorem extractOrderBy_eq_iff : (l.key x).extractOrderBy = (l.key y).extractOrderBy ↔
    ((filledUp (l.keyBytes x)).drop 5).take 5 = ((filledUp (l.keyBytes y)).drop 5).take 5 := by
  have hlx := (length_keyBytes hx).trans hwidth
  have hly := (length_keyBytes hy).trans hwidth
  rw [key, key, (SortKey16.construct_toNat hlx).2, (SortKey16.construct_toNat hly).2, ofBytes_toNat_eq_iff]
  rw [length_take, length_take, length_drop, length_drop, length_filledUp hlx, length_filledUp hly]

end Extract

/-! ## Layouts that fit -/

theorem Fits.length_bytes (h : l.Fits) (hx : l.Conforms x) : x.1.bytes.length = 5 ∨
      x.1.bytes.length = 4 ∧ ∀ c ∈ l.orders.head?, c.nullable = false := by
  have hlen := KeyRow.length_bytes hx.1
  obtain ⟨hpart, -, hshortest | ⟨hshortest, hord⟩⟩ := h
  · exact .inl (by omega)
  · rcases Nat.lt_or_ge x.1.bytes.length 5 with hlt | hge
    · exact .inr ⟨by omega, hord⟩
    · exact .inl (by omega)

/-- Within a partition, the byte of the order value that counts for the partition is always the same. -/
theorem Fits.take_order (h : l.Fits) (hsz : 8 < l.sortWidth) (hx : l.Conforms x) (hy : l.Conforms y)
    (hbs : x.1.bytes = y.1.bytes) :
    (x.2.bytes ++ padding x).take (5 - x.1.bytes.length) = (y.2.bytes ++ padding y).take (5 - x.1.bytes.length) := by
  rcases h.length_bytes hx with hlen | ⟨hlen, hord⟩
  · rw [hlen, Nat.sub_self, take_zero, take_zero]
  · obtain ⟨partitionTypes, orders⟩ := l
    cases orders with
    | nil =>
      have hwidth := h.1
      exact absurd hsz (Nat.not_lt.2 (hwidth.trans (by decide)))
    | cons c cols =>
      have hc : c.nullable = false := hord c rfl
      rw [hlen]
      exact (KeyRow.take_one hc hx.2 _).trans (KeyRow.take_one hc hy.2 _).symm

theorem Fits.separates (h : l.Fits) (hsz : 8 < l.sortWidth) : l.Separates := by
  intro x y hx hy
  have hwidth : l.sortWidth ≤ 16 := h.2.1.trans (by decide)
  have hlx : x.1.bytes.length ≤ 5 := (KeyRow.length_bytes hx.1).2.trans h.1
  have hly : y.1.bytes.length ≤ 5 := (KeyRow.length_bytes hy.1).2.trans h.1
  rw [extractPartition_eq_iff hwidth hx hy, extractOrderBy_eq_iff hwidth hx hy, filledUp_keyBytes, filledUp_keyBytes]
  constructor
  · rw [← KeyRow.bytes_eq_iff]
    constructor
    · exact (KeyRow.prefixFree_bytes _ x.1 y.1).eq_of_take hlx hly
    · intro hbs
      have htake : ∀ q : List UInt8, (x.1.bytes ++ q).take 5 = x.1.bytes ++ q.take (5 - x.1.bytes.length) := by
        intro q
        rw [take_append, take_of_length_le hlx]
      rw [← hbs, htake, htake, h.take_order hsz hx hy hbs]
  · intro hagr
    have hbs := (KeyRow.bytes_eq_iff _ _ _).2 hagr
    rw [← KeyRow.bytes_eq_iff]
    have hdrop : ∀ q : List UInt8, (x.1.bytes ++ q).drop 5 = q.drop (5 - x.1.bytes.length) := by
      intro q
      rw [drop_append, drop_of_length_le hlx, nil_append]
    rw [← hbs, hdrop, hdrop]
    constructor
    · intro heq
      -- together with the byte that counts for the partition, these are all bytes of the order value
      have hall : (x.2.bytes ++ padding x).take (5 - x.1.bytes.length + 5) =
          (y.2.bytes ++ padding y).take (5 - x.1.bytes.length + 5) := by
        rw [take_add, take_add, h.take_order hsz hx hy hbs, heq]
      have hfit : ∀ z : KeyRow l.orders, z.Conforms → z.bytes.length ≤ 5 - x.1.bytes.length + 5 := by
        intro z hz
        have hz' := KeyRow.length_bytes hz
        have hp := KeyRow.length_bytes hx.1
        have htot := h.2.1
        rw [sortWidth] at htot
        omega
      exact (KeyRow.prefixFree_bytes _ x.2 y.2).eq_of_take (hfit _ hx.2) (hfit _ hy.2) hall
    · intro hord
      have hpad : padding x = padding y := by rw [padding, padding, keyBytes, keyBytes, hbs, hord]
      rw [hord, hpad]

/-! ## Layouts that do not -/

/-- The first five bytes are those of the partition. -/
theorem Separates.keyWidth_le (h : l.Separates) (hsz : l.sortWidth ≤ 16) : keyWidth l.partitions ≤ 5 := by
  by_contra hlong
  have hne : l.partitions ≠ [] := by
    intro hnil
    rw [hnil] at hlong
    exact hlong (Nat.zero_le 5)
  -- rows of partitions that differ in the last byte
  obtain ⟨p, q, bytes, a, b, ⟨hp, hpb⟩, ⟨hq, hqb⟩, hlen, hdiff⟩ := KeyRow.exists_last_ne hne
  obtain ⟨o, ho, -⟩ := KeyRow.exists_longest l.orders
  refine hdiff (((h (p, o) (q, o) ⟨hp, ho⟩ ⟨hq, ho⟩).1).1 ?_)
  rw [extractPartition_eq_iff hsz ⟨hp, ho⟩ ⟨hq, ho⟩, filledUp_keyBytes, filledUp_keyBytes]
  rw [hpb, hqb, append_assoc, append_assoc, take_append_of_le_length (by omega), take_append_of_le_length (by omega)]

/-- Bytes of the order value are the same where they count for the partition. -/
theorem Separates.getElem?_eq (h : l.Separates) (hsz : l.sortWidth ≤ 16) {p : KeyRow l.partitions}
    (hp : p.Conforms) {o o' : KeyRow l.orders} (ho : o.Conforms) (ho' : o'.Conforms) {i : ℕ}
    (hi : p.bytes.length + i < 5) {a b : UInt8} (ha : o.bytes[i]? = some a)
    (hb : o'.bytes[i]? = some b) : a = b := by
  have hsm := ((h (p, o) (p, o') ⟨hp, ho⟩ ⟨hp, ho'⟩).1).2 ((KeyRow.bytes_eq_iff _ _ _).1 rfl)
  rw [extractPartition_eq_iff hsz ⟨hp, ho⟩ ⟨hp, ho'⟩, filledUp_keyBytes, filledUp_keyBytes] at hsm
  have hby : ∀ (r : KeyRow l.orders) (z : List UInt8) (c : UInt8), r.bytes[i]? = some c →
      ((p.bytes ++ (r.bytes ++ z)).take 5)[p.bytes.length + i]? = some c := by
    intro r z c hc
    obtain ⟨hlt, -⟩ := List.getElem?_eq_some_iff.1 hc
    rw [List.getElem?_take_of_lt hi, List.getElem?_append_right (Nat.le_add_right _ _),
      Nat.add_sub_cancel_left, List.getElem?_append_left hlt, hc]
  have heq := congrArg (·[p.bytes.length + i]?) hsm
  exact Option.some.inj (((hby o _ a ha).symm.trans heq).trans (hby o' _ b hb))

/-- The next five bytes are those of the order value. -/
theorem Separates.sortWidth_le (h : l.Separates) (hsz : l.sortWidth ≤ 16)
    (hpart : keyWidth l.partitions ≤ 5) : l.sortWidth ≤ 10 := by
  by_contra hlong
  rw [sortWidth] at hlong
  have hne : l.orders ≠ [] := by
    intro hnil
    rw [hnil] at hlong
    exact hlong (hpart.trans (by decide))
  -- rows of a partition that differ in the last byte
  obtain ⟨p, hp, hplength⟩ := KeyRow.exists_longest l.partitions
  obtain ⟨o, o', bytes, a, b, ⟨ho, hob⟩, ⟨ho', hob'⟩, hlen, hdiff⟩ := KeyRow.exists_last_ne hne
  refine hdiff (((h (p, o) (p, o') ⟨hp, ho⟩ ⟨hp, ho'⟩).2 ((KeyRow.bytes_eq_iff _ _ _).1 rfl)).1 ?_)
  have hten : ∀ z : List UInt8, ((p.bytes ++ (bytes ++ z)).drop 5).take 5 = ((p.bytes ++ bytes).take 10).drop 5 := by
    intro z
    rw [take_drop, ← append_assoc, take_append_of_le_length (by rw [length_append]; omega)]
  rw [extractOrderBy_eq_iff hsz ⟨hp, ho⟩ ⟨hp, ho'⟩, filledUp_keyBytes, filledUp_keyBytes]
  rw [hob, hob', append_assoc, append_assoc, hten, hten]

theorem Separates.fits (h : l.Separates) (hsz : 8 < l.sortWidth ∧ l.sortWidth ≤ 16) : l.Fits := by
  have hpart := h.keyWidth_le hsz.2
  have htot := h.sortWidth_le hsz.2 hpart
  have hne : l.orders ≠ [] := by
    intro hnil
    have hlong := hsz.1
    rw [sortWidth, hnil] at hlong
    exact absurd hlong (Nat.not_lt.2 (hpart.trans (by decide)))
  obtain ⟨p, hp, hlen⟩ := KeyRow.exists_shortest l.partitions
  have hle := (KeyRow.length_bytes hp).2
  have hshortest : 4 ≤ shortestWidth l.partitions := by
    by_contra hshort
    obtain ⟨o, o', a, b, ⟨ho, ha⟩, ⟨ho', hb⟩, hdiff⟩ := KeyRow.exists_second_ne hne
    exact hdiff (h.getElem?_eq hsz.2 hp ho ho' (by omega) ha hb)
  refine ⟨hpart, htot, ?_⟩
  rcases Nat.lt_or_ge 4 (shortestWidth l.partitions) with hlt | hge
  · exact .inl (by omega)
  · refine .inr ⟨by omega, ?_⟩
    intro c hc
    by_contra hnl
    rw [Bool.not_eq_false] at hnl
    obtain ⟨partitionTypes, orders⟩ := l
    cases orders with
    | nil => exact absurd rfl hne
    | cons c' cols =>
      obtain rfl : c' = c := Option.some.inj hc
      obtain ⟨o, o', a, b, ⟨ho, ha⟩, ⟨ho', hb⟩, hdiff⟩ := @KeyRow.exists_first_ne c' cols hnl
      exact hdiff (h.getElem?_eq hsz.2 hp ho ho' (by omega) ha hb)

/-- The layouts for which merge pruning has what it relies on. -/
theorem separates_iff {hasPayload : Bool} (h : l.sortKeyType hasPayload = .noPayloadFixed16) :
    l.Separates ↔ l.Fits := by
  obtain ⟨-, hsz⟩ := sortKeyType_eq_iff.1 h
  exact ⟨fun hseparates => hseparates.fits hsz, fun hfits => hfits.separates hsz.1⟩

/-- `INTEGER` columns, the first one without `NULL`s. -/
def integers : KeyLayout :=
  ⟨[(.fixed (.signed .w32), false)], [⟨.fixed (.signed .w32), ⟨.descending, .nullsLast⟩, true⟩]⟩

theorem separates_integers : integers.Separates :=
  (@separates_iff integers false (by decide)).2 ⟨by decide, by decide, .inl (by decide)⟩

/-- A `BIGINT` takes nine bytes. -/
def bigints : KeyLayout :=
  ⟨[(.fixed (.signed .w64), true)], [⟨.fixed (.signed .w32), ⟨.ascending, .nullsLast⟩, true⟩]⟩

/-- The row of two numbers. -/
def bigintRow (partition : BitVec 64) (order : BitVec 32) : bigints.KeyedRow :=
  (KeyRow.cons (some partition) .nil, KeyRow.cons (some order) .nil)

/-- Partitions that differ in the last byte are one for merge pruning. -/
theorem not_separates_bigints : bigints.sortKeyType false = .noPayloadFixed16 ∧
      bigints.Conforms (bigintRow 1 0) ∧ bigints.Conforms (bigintRow 2 0) ∧
      (bigints.key (bigintRow 1 0)).extractPartition = (bigints.key (bigintRow 2 0)).extractPartition ∧
      ¬(bigintRow 1 0).1.Agree (bigintRow 2 0).1 :=
  ⟨by decide, ⟨⟨nofun, trivial⟩, ⟨nofun, trivial⟩⟩, ⟨⟨nofun, trivial⟩, ⟨nofun, trivial⟩⟩, by decide,
    fun h => absurd (show (1 : BitVec 64) = 2 from h.1) (by decide)⟩

end KeyLayout

end WfOpt

import Mathlib

/-!
# Sort keys

The rows of a window sort are compared through *sort keys*: byte strings whose lexicographic order is the order of
the rows (`create_sort_key`), here stored in two 64-bit words (`SortKey<NO_PAYLOAD_FIXED_16>`).

A `NULL` is a single byte, so the bytes of the order column stand at different places in different keys. Merge
pruning nevertheless takes the first five bytes for the partition, and the next five for the order value. Keys that
agree in the former are of the same partition (`partition_eq_of_extract`), and ordered by the latter
(`orderLt_of_extract`).
-/

namespace WfOpt

set_option maxRecDepth 10000

open List

/-! ## Rows and their order -/

/-- `OrderType`. -/
inductive OrderType
  | ascending
  | descending
  deriving DecidableEq, Repr

/-- `OrderByNullType`. -/
inductive OrderByNullType
  | nullsFirst
  | nullsLast
  deriving DecidableEq, Repr

/-- `OrderModifiers`: the direction and the null order of a sort column. -/
structure OrderModifiers where
  orderType : OrderType
  nullType : OrderByNullType
  deriving DecidableEq, Repr

/-- The modifiers of the `PARTITION BY` columns (`HashedSort::GenerateOrderings`). -/
def partitionModifiers : OrderModifiers := ⟨.ascending, .nullsFirst⟩

/-- A row of a window sort: its partition value and its order value. -/
structure Row where
  partition : Option Int32
  order : Option Int32
  deriving DecidableEq, Repr

/-- The order of non-null values. -/
def OrderType.lt : OrderType → Int32 → Int32 → Prop
  | .ascending, a, b => a.toInt < b.toInt
  | .descending, a, b => b.toInt < a.toInt

instance (t : OrderType) : DecidableRel t.lt := fun a b =>
  match t with
  | .ascending => inferInstanceAs (Decidable (a.toInt < b.toInt))
  | .descending => inferInstanceAs (Decidable (b.toInt < a.toInt))

/-- The order of the values of a column, as SQL has it: `a` comes before `b`. -/
def OrderModifiers.lt (m : OrderModifiers) : Option Int32 → Option Int32 → Prop
  | none, none => False
  | none, some _ => m.nullType = .nullsFirst
  | some _, none => m.nullType = .nullsLast
  | some a, some b => m.orderType.lt a b

instance (m : OrderModifiers) : DecidableRel m.lt := fun a b =>
  match a, b with
  | none, none => inferInstanceAs (Decidable False)
  | none, some _ => inferInstanceAs (Decidable (m.nullType = .nullsFirst))
  | some _, none => inferInstanceAs (Decidable (m.nullType = .nullsLast))
  | some a, some b => inferInstanceAs (Decidable (m.orderType.lt a b))

theorem OrderModifiers.lt_trans (m : OrderModifiers) {a b c : Option Int32} (h₁ : m.lt a b)
    (h₂ : m.lt b c) : m.lt a c := by
  obtain ⟨t, n⟩ := m
  cases t <;> cases n <;> cases a <;> cases b <;> cases c <;>
    simp only [lt, OrderType.lt, reduceCtorEq] at * <;> omega

/-- The row `x` comes before `y` in its partition: it counts for the rank of `y`. -/
def Row.before (m : OrderModifiers) (x y : Row) : Prop := x.partition = y.partition ∧ m.lt x.order y.order

instance (m : OrderModifiers) : DecidableRel (Row.before m) := fun x y =>
  inferInstanceAs (Decidable (x.partition = y.partition ∧ m.lt x.order y.order))

instance (m : OrderModifiers) : IsTrans Row (Row.before m) where
  trans _ _ _ h₁ h₂ := ⟨h₁.1.trans h₂.1, m.lt_trans h₁.2 h₂.2⟩

/-! ## Encoding -/

/-- `Radix::EncodeSigned`: big endian, with the sign flipped. -/
def encodeSigned (x : Int32) : List ℕ := let bytes := x.toUInt32.toNat
  [(bytes / 2 ^ 24) ^^^ 128, bytes / 2 ^ 16 % 256, bytes / 2 ^ 8 % 256, bytes % 256]

/-- The byte written for a `NULL` (`null_byte`). -/
def OrderModifiers.nullByte (m : OrderModifiers) : ℕ := match m.nullType with
  | .nullsFirst => 1
  | .nullsLast => 2

/-- The byte written before a value (`valid_byte`). -/
def OrderModifiers.validByte (m : OrderModifiers) : ℕ := match m.nullType with
  | .nullsFirst => 2
  | .nullsLast => 1

/-- `TemplatedConstructSortKeyInternal`: the bytes of one value. After the byte
    of a `NULL`, nothing is written. -/
def constructSortKey (m : OrderModifiers) : Option Int32 → List ℕ
  | none => [m.nullByte]
  | some x =>
    m.validByte :: match m.orderType with
      | .ascending => encodeSigned x
      | .descending => (encodeSigned x).map (255 - ·)

/-- The number of big-endian bytes (`BSwap` of a word in memory). -/
def ofBytes (bytes : List ℕ) : ℕ := bytes.foldl (fun n b => n * 256 + b) 0

/-- `SortKey<NO_PAYLOAD_FIXED_16>`. -/
structure SortKey16 where
  part0 : ℕ
  part1 : ℕ
  deriving DecidableEq, Repr

namespace SortKey16

/-- `FixedSortKey::Construct`: the bytes, filled up with zeros. -/
def construct (bytes : List ℕ) : SortKey16 := let filled := bytes ++ replicate (16 - bytes.length) 0
  ⟨ofBytes (filled.take 8), ofBytes (filled.drop 8)⟩

/-- `SortKeyLessThan`. -/
def lt (x y : SortKey16) : Prop := x.part0 < y.part0 ∨ x.part0 = y.part0 ∧ x.part1 < y.part1

instance : DecidableRel lt := fun x y =>
  inferInstanceAs (Decidable (x.part0 < y.part0 ∨ x.part0 = y.part0 ∧ x.part1 < y.part1))

/-- `extract_partition`. -/
def extractPartition (key : SortKey16) : ℕ := key.part0 >>> 24

/-- The constant `ORDER_BY_MASK`. -/
def orderByMask : ℕ := 2 ^ 40 - 1

/-- `extract_order_by`. -/
def extractOrderBy (key : SortKey16) : ℕ := (orderByMask &&& ((key.part0 <<< 16) % 2 ^ 64)) ||| (key.part1 >>> 48)

end SortKey16

/-- The sort key of a row: the bytes of the partition value, then those of the
    order value. -/
def Row.key (m : OrderModifiers) (x : Row) : SortKey16 :=
  .construct (constructSortKey partitionModifiers x.partition ++ constructSortKey m x.order)

/-! ## The order of the keys -/

/-- The value of an encoded integer. -/
def code (t : OrderType) (x : Int32) : ℕ := match t with
  | .ascending => (x.toInt + 2 ^ 31).toNat
  | .descending => (2 ^ 31 - 1 - x.toInt).toNat

theorem code_lt (t : OrderType) (x : Int32) : code t x < 2 ^ 32 := by
  have h₁ := x.toInt_lt
  have h₂ := x.le_toInt
  cases t <;> simp only [code] <;> omega

/-- Encoded integers are ordered as the integers are. -/
theorem code_lt_code_iff {t : OrderType} {x y : Int32} : code t x < code t y ↔ t.lt x y := by
  have hx := x.le_toInt
  have hx' := x.toInt_lt
  cases t <;> simp only [code, OrderType.lt] <;> omega

theorem code_inj {t : OrderType} {x y : Int32} (h : code t x = code t y) : x = y := by
  have hx := x.le_toInt
  have hx' := x.toInt_lt
  have hy := y.le_toInt
  have hy' := y.toInt_lt
  refine Int32.toInt.inj ?_
  cases t <;> simp only [code] at h <;> omega

theorem xor_sign {b : ℕ} (h : b < 256) : b ^^^ 128 = (b + 128) % 256 := by
  revert b
  decide

theorem toInt_eq (x : Int32) : x.toInt = if x.toUInt32.toNat < 2 ^ 31 then (x.toUInt32.toNat : ℤ)
      else x.toUInt32.toNat - 2 ^ 32 := by
  have := BitVec.toInt_eq_toNat_cond x.toBitVec
  rw [Int32.toInt_toBitVec] at this
  change _ = if x.toBitVec.toNat < 2 ^ 31 then (x.toBitVec.toNat : ℤ) else x.toBitVec.toNat - 2 ^ 32
  split_ifs <;> omega

theorem ofBytes_append (xs ys : List ℕ) : ofBytes (xs ++ ys) = ofBytes xs * 256 ^ ys.length + ofBytes ys := by
  induction ys using reverseRecOn with
  | nil => simp [ofBytes]
  | append_singleton ys b ih =>
    have hsnoc : ∀ zs : List ℕ, ofBytes (zs ++ [b]) = ofBytes zs * 256 + b := fun zs => by
      simp [ofBytes]
    rw [← append_assoc, hsnoc, hsnoc, ih, length_append, length_singleton, pow_succ]
    ring

theorem ofBytes_replicate_zero (n : ℕ) : ofBytes (replicate n 0) = 0 := by
  induction n with
  | zero => rfl
  | succ n ih => rw [replicate_succ', ofBytes_append, ih]; rfl

theorem ofBytes_lt {bytes : List ℕ} (h : ∀ b ∈ bytes, b < 256) : ofBytes bytes < 256 ^ bytes.length := by
  induction bytes using reverseRecOn with
  | nil => simp [ofBytes]
  | append_singleton bytes b ih =>
    have h₁ := ih fun c hc => h c (mem_append_left _ hc)
    have h₂ := h b (by simp)
    have h₃ : ofBytes [b] = b := by simp [ofBytes]
    rw [ofBytes_append, length_append, length_singleton, pow_add, pow_one, h₃]
    omega

/-- The words of a key of at most ten bytes: those of the number of its bytes,
    filled up to ten. -/
theorem SortKey16.construct_eq {bytes : List ℕ} {n : ℕ} (hlen : bytes.length + n = 10) (hb : ∀ b ∈ bytes, b < 256) :
    construct bytes = ⟨ofBytes bytes * 256 ^ n / 2 ^ 16, ofBytes bytes * 256 ^ n % 2 ^ 16 * 2 ^ 48⟩ ∧
      ofBytes bytes * 256 ^ n < 2 ^ 80 := by
  obtain ⟨ten, hten⟩ : ∃ ten, ten = bytes ++ replicate n 0 := ⟨_, rfl⟩
  have htenlen : ten.length = 10 := by simp [hten, hlen]
  have htenb : ∀ b ∈ ten, b < 256 := fun b h => by
    rcases mem_append.1 (hten ▸ h) with h | h
    · exact hb b h
    · rw [eq_of_mem_replicate h]
      decide
  have hfill : bytes ++ replicate (16 - bytes.length) 0 = ten ++ replicate 6 0 := by
    rw [hten, append_assoc, replicate_append_replicate]
    congr 2
    omega
  have hval : ofBytes bytes * 256 ^ n = ofBytes ten := by
    rw [hten, ofBytes_append, ofBytes_replicate_zero, length_replicate, Nat.add_zero]
  have hspl : ofBytes ten = ofBytes (ten.take 8) * 256 ^ 2 + ofBytes (ten.drop 8) := by
    have := ofBytes_append (ten.take 8) (ten.drop 8)
    rwa [take_append_drop, length_drop, htenlen] at this
  have hdrop : ofBytes (ten.drop 8) < 256 ^ 2 := by
    have hb : ∀ b ∈ ten.drop 8, b < 256 := fun b h => htenb b (mem_of_mem_drop h)
    have := ofBytes_lt hb
    rwa [length_drop, htenlen] at this
  have hten_lt := ofBytes_lt htenb
  rw [htenlen] at hten_lt
  simp only [construct, hfill, take_append, drop_append, htenlen, Nat.reduceSub,
    take_zero, append_nil, drop_zero, ofBytes_append, ofBytes_replicate_zero,
    length_replicate, SortKey16.mk.injEq]
  omega

/-! ## The order of the rows -/

/-- The value of the bytes of an order value, as five bytes: those after the byte
    of a `NULL` are zero. -/
def OrderModifiers.orderCode (m : OrderModifiers) : Option Int32 → ℕ
  | none => m.nullByte * 2 ^ 32
  | some x => m.validByte * 2 ^ 32 + code m.orderType x

theorem OrderModifiers.orderCode_lt (m : OrderModifiers) (x : Option Int32) : m.orderCode x < 3 * 2 ^ 32 := by
  cases x with
  | none => cases hn : m.nullType <;> simp [orderCode, nullByte, hn]
  | some x =>
    have := code_lt m.orderType x
    cases hn : m.nullType <;> simp only [orderCode, validByte, hn] <;> omega

variable {m : OrderModifiers}

/-- Encoded order values are ordered as SQL has it. -/
theorem OrderModifiers.orderCode_lt_iff {x y : Option Int32} : m.orderCode x < m.orderCode y ↔ m.lt x y := by
  cases x with
  | none =>
    cases y with
    | none => simp [lt]
    | some y =>
      have := code_lt m.orderType y
      cases hn : m.nullType <;> simp [orderCode, nullByte, validByte, lt, hn] <;> omega
  | some x =>
    have hx := code_lt m.orderType x
    cases y with
    | none => cases hn : m.nullType <;> simp [orderCode, nullByte, validByte, lt, hn] <;> omega
    | some y =>
      simp only [orderCode, lt, ← code_lt_code_iff]
      omega

theorem encodeSigned_value (x : Int32) :
    ofBytes (encodeSigned x) = code .ascending x ∧ ∀ b ∈ encodeSigned x, b < 256 := by
  have hx := toInt_eq x
  have hlt : x.toUInt32.toNat < 2 ^ 32 := x.toUInt32.toNat_lt
  have hxor : (x.toUInt32.toNat / 2 ^ 24) ^^^ 128 = (x.toUInt32.toNat / 2 ^ 24 + 128) % 256 := xor_sign (by omega)
  simp only [encodeSigned, ofBytes, hxor, code]
  split_ifs at hx <;> simp <;> omega

/-- Flipping the bytes turns the order around. -/
theorem ofBytes_flip {bytes : List ℕ} (h : ∀ b ∈ bytes, b < 256) :
    ofBytes (bytes.map (255 - ·)) = 256 ^ bytes.length - 1 - ofBytes bytes := by
  induction bytes using reverseRecOn with
  | nil => rfl
  | append_singleton bytes b ih =>
    have h₁ := ih fun c hc => h c (mem_append_left _ hc)
    have h₂ := h b (by simp)
    have h₃ := ofBytes_lt fun c hc => h c (mem_append_left [b] hc)
    have hsing : ∀ c : ℕ, ofBytes [c] = c := fun c => by simp [ofBytes]
    rw [map_append, ofBytes_append, h₁, ofBytes_append, map_singleton, hsing, hsing,
      length_append, length_singleton, length_singleton, pow_add, pow_one]
    omega

/-- The bytes written for a value. -/
theorem constructSortKey_spec (m : OrderModifiers) (x : Option Int32) :
    ∃ n, (constructSortKey m x).length + n = 5 ∧ ofBytes (constructSortKey m x) * 256 ^ n = m.orderCode x ∧
      ∀ b ∈ constructSortKey m x, b < 256 := by
  have hnl : m.nullByte < 256 := by cases hn : m.nullType <;> simp [OrderModifiers.nullByte, hn]
  have hvld : m.validByte < 256 := by
    cases hn : m.nullType <;> simp [OrderModifiers.validByte, hn]
  cases x with
  | none => exact ⟨4, rfl, by simp [constructSortKey, ofBytes, OrderModifiers.orderCode], by simpa [constructSortKey] using hnl⟩
  | some x =>
    obtain ⟨hval, hb⟩ := encodeSigned_value x
    have hlen : (encodeSigned x).length = 4 := rfl
    have hx := x.le_toInt
    refine ⟨0, ?_⟩
    cases hm : m.orderType with
    | ascending =>
      have : constructSortKey m (some x) = [m.validByte] ++ encodeSigned x := by
        simp [constructSortKey, hm]
      rw [this, ofBytes_append, hval, hlen, OrderModifiers.orderCode, hm]
      refine ⟨rfl, by simp [ofBytes], ?_⟩
      simpa using ⟨hvld, hb⟩
    | descending =>
      have : constructSortKey m (some x) = [m.validByte] ++ (encodeSigned x).map (255 - ·) := by
        simp [constructSortKey, hm]
      rw [this, ofBytes_append, ofBytes_flip hb, hval, length_map, hlen, OrderModifiers.orderCode, hm]
      refine ⟨rfl, ?_, ?_⟩
      · simp only [ofBytes, foldl, code]
        omega
      · simp only [mem_append, mem_singleton, mem_map]
        rintro b (rfl | ⟨c, -, rfl⟩)
        · exact hvld
        · omega

/-- The ten bytes of a key, as a number. -/
def Row.number (m : OrderModifiers) (x : Row) : ℕ := match x.partition with
  | none => 2 ^ 72 + m.orderCode x.order * 2 ^ 32
  | some p => 2 * 2 ^ 72 + code .ascending p * 2 ^ 40 + m.orderCode x.order

theorem SortKey16.extractPartition_eq (key : SortKey16) : key.extractPartition = key.part0 / 2 ^ 24 :=
  Nat.shiftRight_eq_div_pow _ _

/-- The order value is put together from the last three bytes of the first word
    and the first two of the second. -/
theorem SortKey16.extractOrderBy_eq {key : SortKey16} (h : key.part1 < 2 ^ 64) :
    key.extractOrderBy = key.part0 % 2 ^ 24 * 2 ^ 16 + key.part1 / 2 ^ 48 := by
  have hmask : orderByMask &&& ((key.part0 <<< 16) % 2 ^ 64) = 2 ^ 16 * (key.part0 % 2 ^ 24) := by
    rw [orderByMask, Nat.and_comm, Nat.and_two_pow_sub_one_eq_mod, Nat.shiftLeft_eq]
    omega
  rw [extractOrderBy, hmask, Nat.shiftRight_eq_div_pow, ← Nat.two_pow_add_eq_or_of_lt (by omega), Nat.mul_comm]

section

variable (m : OrderModifiers) (x : Row)

theorem Row.key_eq :
    x.key m = ⟨x.number m / 2 ^ 16, x.number m % 2 ^ 16 * 2 ^ 48⟩ ∧ x.number m < 2 ^ 80 := by
  obtain ⟨n, hn, hcode, hb⟩ := constructSortKey_spec m x.order
  cases hp : x.partition with
  | none =>
    have hbs : constructSortKey partitionModifiers none = [1] := rfl
    have hval : ofBytes ([1] ++ constructSortKey m x.order) * 256 ^ (n + 4) = x.number m := by
      have hpow : 256 ^ (constructSortKey m x.order).length * 256 ^ (n + 4) = 2 ^ 72 := by
        rw [← pow_add, ← Nat.add_assoc, hn]
        norm_num
      have hone : ofBytes [1] = 1 := rfl
      rw [ofBytes_append, hone, one_mul, add_mul, hpow, pow_add, ← mul_assoc, hcode]
      simp only [number, hp]
      norm_num
    rw [key, hp, hbs, ← hval]
    refine SortKey16.construct_eq (by simp; omega) ?_
    simpa using hb
  | some p =>
    obtain ⟨n', hn', hcode', hb'⟩ := constructSortKey_spec partitionModifiers (some p)
    have hz : n' = 0 := by
      have : (constructSortKey partitionModifiers (some p)).length = 5 := rfl
      omega
    subst hz
    have hval : ofBytes (constructSortKey partitionModifiers (some p) ++
        constructSortKey m x.order) * 256 ^ n = x.number m := by
      have hpow : 256 ^ (constructSortKey m x.order).length * 256 ^ n = 2 ^ 40 := by
        rw [← pow_add, hn]
        norm_num
      rw [pow_zero, mul_one] at hcode'
      rw [ofBytes_append, add_mul, mul_assoc, hpow, hcode, hcode']
      simp only [number, hp, OrderModifiers.orderCode, partitionModifiers, OrderModifiers.validByte]
      ring
    rw [key, hp, ← hval]
    refine SortKey16.construct_eq ?_ fun b h => (mem_append.1 h).elim (hb' b) (hb b)
    rw [length_append]
    omega

theorem Row.extractPartition_key :
    (x.key m).extractPartition = x.number m / 2 ^ 40 := by
  rw [SortKey16.extractPartition_eq, (x.key_eq m).1, Nat.div_div_eq_div_mul, ← pow_add]

theorem Row.extractOrderBy_key : (x.key m).extractOrderBy = x.number m % 2 ^ 40 := by
  obtain ⟨h, hlt⟩ := x.key_eq m
  rw [SortKey16.extractOrderBy_eq (by rw [h]; dsimp only; omega), h]
  dsimp only
  omega

end

/-- Keys are ordered as their numbers. -/
theorem Row.key_lt_key_iff {x y : Row} : (x.key m).lt (y.key m) ↔ x.number m < y.number m := by
  rw [(x.key_eq m).1, (y.key_eq m).1, SortKey16.lt]
  dsimp only
  omega

/-- Keys that agree in what merge pruning takes for the partition are of the same
    partition. -/
theorem Row.partition_eq_of_extract {x y : Row}
    (h : (x.key m).extractPartition = (y.key m).extractPartition) : x.partition = y.partition := by
  rw [extractPartition_key, extractPartition_key] at h
  have hx := m.orderCode_lt x.order
  have hy := m.orderCode_lt y.order
  cases hxp : x.partition with
  | none =>
    cases hyp : y.partition with
    | none => rfl
    | some q =>
      simp only [number, hxp, hyp] at h
      omega
  | some p =>
    cases hyp : y.partition with
    | none =>
      simp only [number, hxp, hyp] at h
      omega
    | some q =>
      simp only [number, hxp, hyp] at h
      rw [code_inj (t := .ascending) (x := p) (y := q) (by omega)]

/-- Such keys are ordered by what merge pruning takes for the order value. -/
theorem Row.orderLt_of_extract {x y : Row} (hp : (x.key m).extractPartition = (y.key m).extractPartition)
    (ho : (x.key m).extractOrderBy < (y.key m).extractOrderBy) : m.lt x.order y.order := by
  have hpart := partition_eq_of_extract hp
  rw [extractPartition_key, extractPartition_key] at hp
  rw [extractOrderBy_key, extractOrderBy_key] at ho
  rw [← OrderModifiers.orderCode_lt_iff]
  have hlt : x.number m < y.number m := by omega
  cases hxp : x.partition <;> simp only [number, hxp, ← hpart] at hlt <;> omega

end WfOpt

import WfOpt.Basic
import WfOpt.Lib.Utf8
import WfOpt.Sort.KeyFormat

/-!
# The order of sort keys

Sort keys are ordered as the rows are by `ORDER BY`. The proof goes by the structure of
the types, for both directions at once: the bytes of integers and strings are ordered codes, which
are reversed by flipping the bytes, and those of nested values are put together from the codes of
their parts.
-/

namespace WfOpt

set_option maxRecDepth 10000

open List Nat

/-! ## Bytes -/

theorem strictAnti_complement : StrictAnti fun b : UInt8 => ~~~b := by
  intro a b h
  rw [UInt8.lt_iff_toNat_lt] at h
  have hb := b.toNat_lt
  rw [UInt8.lt_iff_toNat_lt, UInt8.toNat_not, UInt8.toNat_not, show UInt8.size = 256 from rfl]
  omega

/-- The number of big-endian bytes. -/
def ofBigEndian : List UInt8 → ℕ
  | [] => 0
  | b :: l => b.toNat * 256 ^ l.length + ofBigEndian l

theorem ofBigEndian_lt (l : List UInt8) : ofBigEndian l < 256 ^ l.length := by
  induction l with
  | nil => exact Nat.one_pos
  | cons b l ih =>
    have hb := b.toNat_lt
    calc ofBigEndian (b :: l) < b.toNat * 256 ^ l.length + 256 ^ l.length := Nat.add_lt_add_left ih _
      _ = (b.toNat + 1) * 256 ^ l.length := by ring
      _ ≤ 256 * 256 ^ l.length := Nat.mul_le_mul_right _ (by omega)
      _ = 256 ^ (b :: l).length := by rw [length_cons, pow_succ]; ring

/-- Bytes are compared as the numbers. -/
theorem lt_iff_ofBigEndian_lt {l l' : List UInt8} (h : l.length = l'.length) :
    l < l' ↔ ofBigEndian l < ofBigEndian l' := by
  induction l generalizing l' with
  | nil =>
    rw [length_nil, eq_comm, length_eq_zero_iff] at h
    subst h
    simp
  | cons a l ih =>
    cases l' with
    | nil => exact absurd h (by simp)
    | cons b l' =>
      have hlen : l.length = l'.length := succ.inj h
      have h₁ := ofBigEndian_lt l
      have h₂ := ofBigEndian_lt l'
      rw [cons_lt_cons_iff, ih hlen, ofBigEndian, ofBigEndian, ← hlen]
      rw [← hlen] at h₂
      generalize 256 ^ l.length = n at *
      rcases lt_trichotomy a.toNat b.toNat with hab | hab | hab
      · refine iff_of_true (.inl (UInt8.lt_iff_toNat_lt.2 hab)) ?_
        have := Nat.mul_le_mul_right n (show a.toNat + 1 ≤ b.toNat from hab)
        rw [Nat.add_mul] at this
        omega
      · rw [UInt8.toNat_inj.1 hab]
        simp
      · refine iff_of_false ?_ ?_
        · rintro (h | ⟨h, -⟩)
          · rw [UInt8.lt_iff_toNat_lt] at h
            omega
          · rw [h] at hab
            omega
        · have := Nat.mul_le_mul_right n (show b.toNat + 1 ≤ a.toNat from hab)
          rw [Nat.add_mul] at this
          omega

theorem length_bigEndian (n x : ℕ) : (bigEndian n x).length = n := by
  induction n with
  | zero => rfl
  | succ n ih => rw [bigEndian, length_cons, ih]

theorem ofBigEndian_bigEndian (n x : ℕ) : ofBigEndian (bigEndian n x) = x % 256 ^ n := by
  induction n with
  | zero => rw [bigEndian, ofBigEndian, pow_zero, mod_one]
  | succ n ih =>
    rw [bigEndian, ofBigEndian, length_bigEndian, ih, UInt8.toNat_ofNat', pow_succ 256 n,
      mod_mul, show 2 ^ 8 = 256 from rfl]
    ring

/-- The halves of a number. -/
theorem bigEndian_add (n m x : ℕ) : bigEndian (n + m) x = bigEndian n (x / 256 ^ m) ++ bigEndian m x := by
  induction n with
  | zero => simp [bigEndian]
  | succ n ih =>
    rw [succ_add, bigEndian, bigEndian, cons_append, ih, Nat.div_div_eq_div_mul, ← pow_add, Nat.add_comm m n]

theorem bigEndian_mod (n x : ℕ) : bigEndian n (x % 256 ^ n) = bigEndian n x := by
  have hmod : ∀ m ≤ n, bigEndian m (x % 256 ^ n) = bigEndian m x := by
    intro m
    induction m with
    | zero => exact fun _ => rfl
    | succ m ih =>
      intro hm
      rw [bigEndian, bigEndian, ih (by omega)]
      refine congrArg (· :: _) (UInt8.toNat_inj.1 ?_)
      rw [UInt8.toNat_ofNat', UInt8.toNat_ofNat', show 2 ^ 8 = 256 from rfl]
      obtain ⟨k, rfl⟩ := Nat.exists_eq_add_of_le hm
      rw [show 256 ^ (m + 1 + k) = 256 ^ m * (256 * 256 ^ k) by ring, mod_mul_right_div_self, mod_mul_right_mod]
  exact hmod n le_rfl

/-! ## Integers -/

theorem length_flipSign (l : List UInt8) : (flipSign l).length = l.length := by
  cases l <;> rfl

theorem toNat_xor_sign (b : UInt8) : (b ^^^ 128).toNat = (b.toNat + 128) % 256 := by
  have hxor : ∀ n < 256, n ^^^ 128 = (n + 128) % 256 := by decide
  exact hxor _ b.toNat_lt

/-- Flipping the sign adds one half of the range. -/
theorem ofBigEndian_flipSign (b : UInt8) (l : List UInt8) : ofBigEndian (flipSign (b :: l)) =
      (ofBigEndian (b :: l) + 128 * 256 ^ l.length) % 256 ^ (l.length + 1) := by
  have h := ofBigEndian_lt l
  rw [flipSign, ofBigEndian, ofBigEndian, toNat_xor_sign, pow_succ]
  generalize 256 ^ l.length = n at *
  rw [show b.toNat * n + ofBigEndian l + 128 * n = ofBigEndian l + n * (b.toNat + 128) by ring,
    mod_mul, add_mul_mod_self_left, add_mul_div_left _ _ (by omega),
    mod_eq_of_lt h, div_eq_of_lt h, Nat.zero_add]
  ring

/-- A signed integer is encoded by its distance from the smallest one. -/
theorem ofBigEndian_encodeSignedData {bytes : ℕ} (hbs : 0 < bytes) (v : BitVec (8 * bytes)) :
    (ofBigEndian (encodeSignedData bytes v.toNat) : ℤ) = v.toInt + 128 * 256 ^ (bytes - 1) := by
  obtain ⟨n, rfl⟩ := Nat.exists_eq_add_of_le' hbs
  have hpow : 2 ^ (8 * (n + 1)) = 256 * 256 ^ n := by
    rw [pow_mul, show 2 ^ 8 = 256 from rfl, pow_succ, Nat.mul_comm]
  have hlt : v.toNat < 256 * 256 ^ n := hpow ▸ v.isLt
  have hval : ofBigEndian (encodeSignedData (n + 1) v.toNat) = (v.toNat + 128 * 256 ^ n) % (256 * 256 ^ n) := by
    rw [encodeSignedData, bigEndian, ofBigEndian_flipSign, ← bigEndian, ofBigEndian_bigEndian,
      length_bigEndian, pow_succ, Nat.mul_comm (256 ^ n) 256, mod_eq_of_lt hlt]
  rw [hval, BitVec.toInt_eq_toNat_cond, hpow]
  generalize hn : 256 ^ n = k at *
  have hk : ((256 : ℤ) ^ n) = k := by
    norm_cast
  rw [Nat.add_sub_cancel, hk]
  split_ifs with hhalf
  · rw [mod_eq_of_lt (by omega)]
    push_cast
    ring
  · rw [mod_eq_sub_mod (by omega), mod_eq_of_lt (by omega)]
    omega

theorem bytes_pos (width : IntegerWidth) : 0 < width.bytes := by
  cases width <;> decide

section

variable (width : IntegerWidth) (v : BitVec (8 * width.bytes))

/-- All integers are written with their most significant byte first. -/
theorem encodeData_unsigned :
    encodeData (.unsigned width) v = bigEndian width.bytes v.toNat := by
  cases width with
  | w128 =>
    change bigEndian 8 ((v : BitVec 128).extractLsb' 64 64).toNat ++
      bigEndian 8 ((v : BitVec 128).extractLsb' 0 64).toNat = bigEndian (8 + 8) v.toNat
    rw [bigEndian_add, BitVec.extractLsb'_toNat, BitVec.extractLsb'_toNat, shiftRight_eq_div_pow,
      shiftRight_eq_div_pow, show 2 ^ 64 = 256 ^ 8 from rfl, bigEndian_mod, bigEndian_mod,
      pow_zero, Nat.div_one]
  | _ => rfl

theorem encodeData_signed :
    encodeData (.signed width) v = encodeSignedData width.bytes v.toNat := by
  cases width with
  | w128 =>
    change encodeSignedData 8 ((v : BitVec 128).extractLsb' 64 64).toNat ++
      bigEndian 8 ((v : BitVec 128).extractLsb' 0 64).toNat = encodeSignedData (8 + 8) v.toNat
    rw [encodeSignedData, encodeSignedData, bigEndian_add, BitVec.extractLsb'_toNat,
      BitVec.extractLsb'_toNat, shiftRight_eq_div_pow, shiftRight_eq_div_pow,
      show 2 ^ 64 = 256 ^ 8 from rfl, bigEndian_mod, bigEndian_mod, pow_zero, Nat.div_one]
    rfl
  | _ => rfl

end

theorem length_encodeData (t : FixedType) (x : t.Value) : (encodeData t x).length = t.size := by
  cases t with
  | bool => rfl
  | unsigned width => rw [encodeData_unsigned width x, length_bigEndian, FixedType.size]
  | signed width =>
    rw [encodeData_signed width x, encodeSignedData, length_flipSign, length_bigEndian, FixedType.size]

theorem FixedType.toInt_injective (t : FixedType) : Function.Injective t.toInt := by
  intro x y h
  cases t with
  | bool => cases x <;> cases y <;> first | rfl | exact absurd h (by decide)
  | unsigned width => exact BitVec.eq_of_toNat_eq (Int.ofNat.inj h)
  | signed width => exact BitVec.eq_of_toInt_eq h

/-- The number of the bytes of a value, up to a constant. -/
theorem exists_ofBigEndian_encodeData (t : FixedType) :
    ∃ k : ℤ, ∀ x, (ofBigEndian (encodeData t x) : ℤ) = t.toInt x + k := by
  cases t with
  | bool => exact ⟨0, fun x => by cases x <;> rfl⟩
  | unsigned width =>
    refine ⟨0, fun x => ?_⟩
    have hlt : (x : BitVec (8 * width.bytes)).toNat < 256 ^ width.bytes := by
      rw [show 256 = 2 ^ 8 from rfl, ← pow_mul]
      exact BitVec.isLt _
    rw [encodeData_unsigned width x, ofBigEndian_bigEndian, mod_eq_of_lt hlt, add_zero]
    rfl
  | signed width =>
    refine ⟨128 * 256 ^ (width.bytes - 1), fun x => ?_⟩
    rw [encodeData_signed width x]
    exact ofBigEndian_encodeSignedData (bytes_pos width) x

theorem orderedCode_encodeData (t : FixedType) : OrderedCode (fun x y => t.toInt x < t.toInt y) (encodeData t) := by
  obtain ⟨k, hk⟩ := exists_ofBigEndian_encodeData t
  refine .of_length (length_encodeData t) (fun x y => ?_) fun x y heq => ?_
  · rw [lt_iff_ofBigEndian_lt (by rw [length_encodeData, length_encodeData]), ← Int.ofNat_lt, hk, hk]
    omega
  · have := congrArg (fun l => (ofBigEndian l : ℤ)) heq
    simp only [hk] at this
    exact t.toInt_injective (by omega)

/-! ## Strings -/

variable {α : Type*}

theorem listLt_iff_lt [LinearOrder α] (l l' : List α) : OrderedCode.listLt (· < ·) True l l' ↔ l < l' := by
  induction l generalizing l' with
  | nil => cases l' <;> simp [OrderedCode.listLt]
  | cons x l ih =>
    cases l' with
    | nil => simp [OrderedCode.listLt]
    | cons y l' => simp [OrderedCode.listLt, ih, cons_lt_cons_iff]

/-- UTF-8 has no byte with all bits set. -/
theorem stringBytes_ne (s : String) : ∀ b ∈ stringBytes s, b ≠ 255 := by
  intro b hb
  rw [stringBytes, ← String.utf8Encode_toList, List.utf8Encode, data_toByteArray] at hb
  obtain ⟨c, -, hc⟩ := mem_flatMap.1 hb
  exact utf8EncodeChar_ne c b hc

theorem orderedCode_escape : OrderedCode (· < ·) fun b : UInt8 => if b ≤ 1 then [1, b] else [b] := by
  refine ⟨fun x y => ?_, fun x y heq => ?_, fun x y => ?_⟩
  · split_ifs with hx hy hy
    · simp [cons_lt_cons_iff]
    · have hy' : 1 < y := not_le.1 hy
      simp [cons_lt_cons_iff, hy', hx.trans_lt hy']
    · have hx' : 1 < x := not_le.1 hx
      simp [cons_lt_cons_iff, hx'.ne', hx'.not_gt, (hy.trans_lt hx').not_gt]
    · simp [cons_lt_cons_iff]
  · split_ifs at heq with hx hy hy
    · simpa using heq
    · simp at heq
    · simp at heq
    · simpa using heq
  · split_ifs with hx hy hy
    · exact .of_length_eq rfl
    · have hne : (1 : UInt8) ≠ y := (not_le.1 hy).ne
      exact ⟨fun h => absurd (cons_prefix_cons.1 h).1 hne, fun h => absurd (cons_prefix_cons.1 h).1 hne.symm⟩
    · have hne : x ≠ (1 : UInt8) := (not_le.1 hx).ne'
      exact ⟨fun h => absurd (cons_prefix_cons.1 h).1 hne, fun h => absurd (cons_prefix_cons.1 h).1 hne.symm⟩
    · exact .of_length_eq rfl

theorem orderedCode_blob : OrderedCode (· < ·) encodeBlob := by
  have hlist := orderedCode_escape.list (d := 0) True fun b => by
    split_ifs with hb
    · exact ⟨1, [b], rfl, by decide, by decide⟩
    · have hpos : (0 : UInt8) < b := lt_trans (by decide) (not_le.1 hb)
      exact ⟨b, [], rfl, hpos.ne', iff_of_true hpos trivial⟩
  exact hlist.congr fun l l' => (listLt_iff_lt l l').symm

theorem stringBytes_injective : Function.Injective stringBytes := by
  intro s s' h
  exact String.toByteArray_inj.1 (ByteArray.ext (Array.toList_inj.1 h))

theorem listLt_map {α γ : Type*} {lt : α → α → Prop} {g : γ → α} (hg : Function.Injective g)
    (shorterFirst : Prop) (l l' : List γ) :
    OrderedCode.listLt (fun x y => lt (g x) (g y)) shorterFirst l l' ↔
      OrderedCode.listLt lt shorterFirst (l.map g) (l'.map g) := by
  induction l generalizing l' with
  | nil => cases l' <;> simp [OrderedCode.listLt]
  | cons x l ih =>
    cases l' with
    | nil => simp [OrderedCode.listLt]
    | cons y l' => simp [OrderedCode.listLt, ih, hg.eq_iff]

theorem toNat_add_one {b : UInt8} (hb : b ≠ 255) : (b + 1).toNat = b.toNat + 1 := by
  have hlt := b.toNat_lt
  have hne : b.toNat ≠ 255 := fun h => hb (UInt8.toNat_inj.1 h)
  rw [UInt8.toNat_add, show (1 : UInt8).toNat = 1 from rfl, mod_eq_of_lt (by omega)]

/-- Bytes are shifted by one, to make room for the delimiter. -/
theorem orderedCode_shift : OrderedCode (fun x y : { b : UInt8 // b ≠ 255 } => x.1 < y.1) fun b => [b.1 + 1] := by
  refine .of_length (fun _ => rfl) (fun x y => ?_) fun x y heq => ?_
  · rw [cons_lt_cons_iff, UInt8.lt_iff_toNat_lt, UInt8.lt_iff_toNat_lt, toNat_add_one x.2, toNat_add_one y.2]
    simp
  · have := congrArg UInt8.toNat (cons.inj heq).1
    rw [toNat_add_one x.2, toNat_add_one y.2] at this
    exact Subtype.ext (UInt8.toNat_inj.1 (succ.inj this))

theorem orderedCode_varchar : OrderedCode (fun s s' => stringBytes s < stringBytes s') fun s =>
      encodeVarchar (stringBytes s) := by
  have hlist := orderedCode_shift.list (d := 0) True fun b => by
    have hpos : (0 : UInt8) < b.1 + 1 := by
      rw [UInt8.lt_iff_toNat_lt, toNat_add_one b.2]
      exact succ_pos _
    exact ⟨b.1 + 1, [], rfl, hpos.ne', iff_of_true hpos trivial⟩
  obtain ⟨f, hf⟩ : ∃ f : String → List { b : UInt8 // b ≠ 255 }, f = fun s =>
      (stringBytes s).attachWith (· ≠ 255) (stringBytes_ne s) := ⟨_, rfl⟩
  have hval : ∀ s, (f s).map Subtype.val = stringBytes s := fun s => by simp [hf]
  have hcomap := hlist.comap (f := f) fun s s' h =>
    stringBytes_injective (by rw [← hval s, ← hval s', h])
  have hcode : (fun s => encodeVarchar (stringBytes s)) = fun s => (f s).flatMap (fun b => [b.1 + 1]) ++ [0] := by
    funext s
    rw [encodeVarchar, ← hval, map_map, map_eq_flatMap]
    rfl
  rw [hcode]
  refine hcomap.congr fun s s' => ?_
  rw [listLt_map Subtype.val_injective, hval, hval, listLt_iff_lt]

/-! ## Directions -/

variable {code : α → List UInt8}

theorem OrderedCode.flipBytes {lt : α → α → Prop} (h : OrderedCode lt code) (d : OrderType) :
    OrderedCode (d.directed lt) fun x => d.flipBytes (code x) := by
  cases d with
  | ascending => exact h
  | descending => exact h.reverse strictAnti_complement

/-- The bytes of a column, with `NULL`s at one end. -/
theorem OrderedCode.encodeOption {lt : α → α → Prop}
    {m : OrderModifiers} (h : OrderedCode (m.orderType.directed lt) code) (null : List UInt8) :
    OrderedCode (columnLt m lt) (encodeOption m null code) := by
  have hbs : ∀ (d : OrderType) (n : OrderByNullType),
      UInt8.ofNat (OrderModifiers.nullByte ⟨d, n⟩) ≠ UInt8.ofNat (OrderModifiers.validByte ⟨d, n⟩) ∧
      (n = .nullsFirst ↔ UInt8.ofNat (OrderModifiers.nullByte ⟨d, n⟩) <
        UInt8.ofNat (OrderModifiers.validByte ⟨d, n⟩)) ∧
      (n = .nullsLast ↔ UInt8.ofNat (OrderModifiers.validByte ⟨d, n⟩) <
        UInt8.ofNat (OrderModifiers.nullByte ⟨d, n⟩)) := by
    intro d n
    cases d <;> cases n <;> decide
  obtain ⟨hne, hfst, hlst⟩ := hbs m.orderType m.nullType
  exact h.option hne null id (fun _ => hfst) (fun _ => hlst) fun _ _ => .rfl

/-- Within nested values, `NULL`s are last in the direction of the column. -/
theorem columnLt_child (m : OrderModifiers) (lt : α → α → Prop) (x y : Option α) :
    columnLt m.child lt x y ↔ m.orderType.directed (nullsLastLt lt) x y := by
  obtain ⟨d, n⟩ := m
  cases d <;> cases x <;> cases y <;>
    simp [columnLt, OrderModifiers.child, OrderType.directed, nullsLastLt]

theorem encodeOption_first (m : OrderModifiers) (null : List UInt8)
    (code : α → List UInt8) (x : Option α) : ∃ b l, encodeOption m null code x = b :: l ∧
      b ≠ m.orderType.listDelimiter ∧ (m.orderType.listDelimiter < b ↔ m.orderType = .ascending) := by
  obtain ⟨d, n⟩ := m
  cases x with
  | none | some x => exact ⟨_, _, rfl, by cases d <;> cases n <;> decide, by cases d <;> cases n <;> decide⟩

theorem OrderedCode.elements {lt : α → α → Prop}
    {m : OrderModifiers} (h : OrderedCode (m.orderType.directed lt) code) (null : List UInt8) :
    OrderedCode (m.orderType.directed (listLt (nullsLastLt lt) True)) fun l =>
      l.flatMap (WfOpt.encodeOption m.child null code) ++ [m.orderType.listDelimiter] := by
  have helement := (h.encodeOption (m := m.child) null).congr
    fun x y => (columnLt_child m lt x y).symm
  refine (helement.list _ (encodeOption_first m.child null code)).congr fun l l' => ?_
  obtain ⟨d, n⟩ := m
  cases d with
  | ascending =>
    change listLt (nullsLastLt lt) True l l' ↔ listLt (nullsLastLt lt) (OrderType.ascending = .ascending) l l'
    rw [eq_self]
  | descending =>
    change listLt (nullsLastLt lt) True l' l ↔
      listLt (fun x y => nullsLastLt lt y x) (OrderType.descending = .ascending) l l'
    rw [← listLt_swap, eq_false (show OrderType.descending ≠ .ascending by decide)]

/-! ## Values -/

mutual

theorem orderedCode_payload (m : OrderModifiers) : (t : SortType) →
    OrderedCode (m.orderType.directed (payloadLt t)) (encodePayload m t)
  | .fixed t => (orderedCode_encodeData t).flipBytes m.orderType
  | .varchar => orderedCode_varchar.flipBytes m.orderType
  | .blob => orderedCode_blob.flipBytes m.orderType
  | .struct ts => orderedCode_payloads m ts
  | .list t => (orderedCode_payload m.child t).elements (m := m) (encodeNull m.child t)
  | .array t n => by
    have hlist := (orderedCode_payload m.child t).elements (m := m) (encodeNull m.child t)
    exact (hlist.comap (f := fun x : Payload (.array t n) => x.1) Subtype.val_injective).congr
      fun x y => by cases m.orderType <;> exact .rfl

theorem orderedCode_payloads (m : OrderModifiers) : (ts : SortTypes) →
    OrderedCode (m.orderType.directed (payloadsLt ts)) (encodePayloads m.child ts)
  | .nil => OrderedCode.unit.congr fun x y => by cases m.orderType <;> exact .rfl
  | .cons t ts => by
    have hhead := ((orderedCode_payload m.child t).encodeOption (m := m.child)
      (encodeNull m.child t)).congr fun x y => (columnLt_child m (payloadLt t) x y).symm
    refine (hhead.prod (orderedCode_payloads m ts)).congr fun x y => ?_
    cases m.orderType with
    | ascending => exact .rfl
    | descending => exact or_congr_right (and_congr_left' eq_comm)

end

theorem orderedCode_value (m : OrderModifiers) (t : SortType) :
    OrderedCode (columnLt m (payloadLt t)) (encodeValue m t) :=
  (orderedCode_payload m t).encodeOption (encodeNull m t)

/-- Sort keys are ordered as the rows are. -/
theorem orderedCode_row : (cols : SortColumns) → OrderedCode (orderByLt cols) (encodeRow cols)
  | [] => OrderedCode.unit
  | c :: cols => (orderedCode_value c.2 c.1).prod (orderedCode_row cols)

end WfOpt

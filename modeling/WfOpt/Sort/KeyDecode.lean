import WfOpt.Sort.KeyVectors

/-!
# Decoding sort keys

`decode_sort_key` reads the values of rows back from their sort keys, column by column. The elements of lists are
appended to a child vector, those of arrays have fixed places. What was written for values is read, and nothing
behind it (`decodesBatch_value`), so that the keys of rows are decoded to these rows (`decode_create`).
-/

namespace WfOpt

open List Nat Function Option

/-! ## Values -/

/-- A byte is flipped for a descending order. -/
def OrderType.flipByte (d : OrderType) (b : UInt8) : UInt8 := match d with
  | .ascending => b
  | .descending => ~~~b

/-- Why a key cannot be decoded: it ends too early, or "Failed to decode array - found %d elements
    but expected %d". -/
inductive DecodeError
  | outOfBounds
  | arraySize (found expected : ℕ)
  deriving DecidableEq, Repr

/-- The next byte of a key. -/
def readByte : List UInt8 → Except DecodeError (UInt8 × List UInt8)
  | [] => .error .outOfBounds
  | b :: bytes => .ok (b, bytes)

/-- `Radix::DecodeData`. -/
def decodeData : (t : FixedType) → List UInt8 → t.Value
  | .bool, bytes => bytes.headD 0 != 0
  | .unsigned .w128, bytes =>
    (BitVec.ofNat 64 (ofBigEndian (bytes.take 8)) ++ BitVec.ofNat 64 (ofBigEndian (bytes.drop 8)) : BitVec 128)
  | .unsigned width, bytes => BitVec.ofNat (8 * width.bytes) (ofBigEndian bytes)
  | .signed .w128, bytes =>
    (BitVec.ofNat 64 (ofBigEndian (flipSign (bytes.take 8))) ++
      BitVec.ofNat 64 (ofBigEndian (bytes.drop 8)) : BitVec 128)
  | .signed width, bytes => BitVec.ofNat (8 * width.bytes) (ofBigEndian (flipSign bytes))

/-- `SortKeyConstantOperator::Decode`. -/
def decodeConstant (d : OrderType) (t : FixedType) (bytes : List UInt8) :
    Except DecodeError (t.Value × List UInt8) :=
  if bytes.length < t.size then .error .outOfBounds
  else .ok (decodeData t ((bytes.take t.size).map d.flipByte), bytes.drop t.size)

/-- `SortKeyVarcharOperator::Decode`. -/
def decodeVarchar (d : OrderType) (bytes : List UInt8) : Except DecodeError (List UInt8 × List UInt8) :=
  let strLen := bytes.findIdx (· == d.flipByte 0)
  if strLen = bytes.length then .error .outOfBounds
  else .ok ((bytes.take strLen).map (d.flipByte · - 1), bytes.drop (strLen + 1))

/-- The position of the delimiter of a blob, and the length of the blob. -/
def blobEnd (delimiter escape : UInt8) : List UInt8 → Except DecodeError (ℕ × ℕ)
  | [] => .error .outOfBounds
  | b :: bytes =>
    if b = delimiter then .ok (0, 0)
    else if b = escape then
      match bytes with
      | [] => .error .outOfBounds
      | _ :: bytes => (blobEnd delimiter escape bytes).map fun p => (p.1 + 2, p.2 + 1)
    else (blobEnd delimiter escape bytes).map fun p => (p.1 + 1, p.2 + 1)

/-- The bytes of a blob. Behind an escape character, it is the next byte. -/
def blobBytes (d : OrderType) : List UInt8 → List UInt8
  | [] => []
  | b :: bytes =>
    if b = d.flipByte 1 then
      match bytes with
      | [] => []
      | b :: bytes => d.flipByte b :: blobBytes d bytes
    else d.flipByte b :: blobBytes d bytes

/-- `SortKeyBlobOperator::Decode`. -/
def decodeBlob (d : OrderType) (bytes : List UInt8) : Except DecodeError (List UInt8 × List UInt8) :=
  (blobEnd (d.flipByte 0) (d.flipByte 1) bytes).map fun p =>
    (blobBytes d (bytes.take p.1), bytes.drop (p.1 + 1))

/-! ## Result vectors -/

mutual

/-- The data of a result vector: for lists the offsets and lengths, and the number of elements in the child vector. -/
def ResultBody : SortType → Type
  | .fixed t => ℕ → t.Value
  | .varchar => ℕ → List UInt8
  | .blob => ℕ → List UInt8
  | .struct ts => ResultBodies ts
  | .list t => (ℕ → ℕ × ℕ) × ℕ × (ℕ → Bool) × ResultBody t
  | .array t _ => (ℕ → Bool) × ResultBody t

/-- The child vectors of a struct. -/
def ResultBodies : SortTypes → Type
  | .nil => Unit
  | .cons t ts => ((ℕ → Bool) × ResultBody t) × ResultBodies ts

end

/-- The validity of the rows, and their data. -/
abbrev ResultVector (t : SortType) := (ℕ → Bool) × ResultBody t

/-- `SetInvalid`. -/
def setInvalid (validity : ℕ → Bool) (r : ℕ) : ℕ → Bool := update validity r false

/-- What is left of the keys of the rows (`DecodeSortKeyData`). -/
abbrev DecodeData := ℕ → List UInt8

/-- How the value of a row is read from its key and written to a vector. -/
abbrev RowDecoder (V : Type) := ℕ → List UInt8 → V → Except DecodeError (List UInt8 × V)

/-- The same for rows from an offset on, one for each key. -/
abbrev BatchDecoder (V : Type) := ℕ → ℕ → DecodeData → V → Except DecodeError (DecodeData × V)

/-- The loop over the keys. -/
def decodeRows {V : Type} (decode : RowDecoder V) : BatchDecoder V := fun offset count keys v =>
  (range count).foldlM (fun s i => do
    let (bytes, v) ← decode (offset + i) (s.1 i) s.2
    pure (update s.1 i bytes, v)) (keys, v)

/-- A row of a vector is decoded by itself (`DecodeSortKeyRecursive` with a count of 1). -/
def decodeSingle {V : Type} (decode : BatchDecoder V) : RowDecoder V := fun r bytes v => do
  let (keys, v) ← decode r 1 (fun _ => bytes) v
  pure (keys 0, v)

/-- Two vectors are decoded one after the other, from the same keys. -/
def decodeBoth {V W : Type} (first : BatchDecoder V) (second : BatchDecoder W) :
    BatchDecoder (V × W) := fun offset count keys v => do
  let (keys, v₁) ← first offset count keys v.1
  let (keys, v₂) ← second offset count keys v.2
  pure (keys, (v₁, v₂))

/-! ## Decoding -/

/-- `TemplatedDecodeSortKey`, for a row. -/
def templatedDecodeSortKey {α : Type} (m : OrderModifiers)
    (decode : List UInt8 → Except DecodeError (α × List UInt8)) :
    RowDecoder ((ℕ → Bool) × (ℕ → α)) := fun r bytes v => do
  let (validityByte, bytes) ← readByte bytes
  if validityByte = UInt8.ofNat m.nullByte then pure (bytes, (setInvalid v.1 r, v.2))
  else
    let (x, bytes) ← decode bytes
    pure (bytes, (v.1, update v.2 r x))

/-- The validity of a struct, which does not matter for its fields. -/
def decodeValidity (m : OrderModifiers) : RowDecoder (ℕ → Bool) := fun r bytes validity => do
  let (validityByte, bytes) ← readByte bytes
  pure (bytes, if validityByte = UInt8.ofNat m.nullByte then setInvalid validity r else validity)

/-- The elements of a list up to the delimiter. As each one takes a byte at least, the number of bytes bounds the
    loop. -/
def decodeElements {V : Type} (delimiter : UInt8) (decode : RowDecoder V) :
    ℕ → List UInt8 → ℕ → V → Except DecodeError (List UInt8 × ℕ × V)
  | 0, _, _, _ => .error .outOfBounds
  | _ + 1, [], _, _ => .error .outOfBounds
  | fuel + 1, b :: bytes, size, v =>
    if b = delimiter then .ok (bytes, size, v)
    else do
      let (bytes, v) ← decode size (b :: bytes) v
      decodeElements delimiter decode fuel bytes (size + 1) v

/-- `DecodeSortKeyList`, for a row. -/
def decodeSortKeyList {V : Type} (m : OrderModifiers) (decode : RowDecoder V) :
    RowDecoder ((ℕ → Bool) × (ℕ → ℕ × ℕ) × ℕ × V) := fun r bytes v => do
  let (validityByte, bytes) ← readByte bytes
  if validityByte = UInt8.ofNat m.nullByte then pure (bytes, (setInvalid v.1 r, v.2))
  else
    let (validity, entries, size, child) := v
    let (bytes, newSize, child) ← decodeElements m.orderType.listDelimiter decode bytes.length bytes
      size child
    pure (bytes, (validity, update entries r (size, newSize - size), newSize, child))

/-- The elements of an array: it stops at the delimiter, or when one too many is found. What is
    skipped is counted. -/
def decodeArrayElements {V : Type} (delimiter : UInt8) (decode : RowDecoder V) (start : ℕ) :
    ℕ → ℕ → List UInt8 → V → Except DecodeError (List UInt8 × ℕ × V)
  | _, _, [], _ => .error .outOfBounds
  | 0, found, b :: bytes, v => .ok (bytes, if b = delimiter then found else found + 1, v)
  | left + 1, found, b :: bytes, v =>
    if b = delimiter then .ok (bytes, found, v)
    else do
      let (bytes, v) ← decode (start + found) (b :: bytes) v
      decodeArrayElements delimiter decode start left (found + 1) bytes v

/-- `DecodeSortKeyArray`, for a row. The elements are read also if it is `NULL`. -/
def decodeSortKeyArray {V : Type} (m : OrderModifiers) (size : ℕ) (decode : RowDecoder V) :
    RowDecoder ((ℕ → Bool) × V) := fun r bytes v => do
  let (bytes, validity) ← decodeValidity m r bytes v.1
  let (bytes, found, child) ← decodeArrayElements m.orderType.listDelimiter decode (size * r) size 0
    bytes v.2
  if found ≠ size then .error (.arraySize found size) else pure (bytes, (validity, child))

mutual

/-- `DecodeSortKeyRecursive`. -/
def decodeSortKeyRecursive (m : OrderModifiers) : (t : SortType) → BatchDecoder (ResultVector t)
  | .fixed t => decodeRows (templatedDecodeSortKey m (decodeConstant m.orderType t))
  | .varchar => decodeRows (templatedDecodeSortKey m (decodeVarchar m.orderType))
  | .blob => decodeRows (templatedDecodeSortKey m (decodeBlob m.orderType))
  | .struct ts => decodeBoth (decodeRows (decodeValidity m)) (decodeSortKeyChildren m.child ts)
  | .list t => decodeRows (decodeSortKeyList m (decodeSingle (decodeSortKeyRecursive m.child t)))
  | .array t size =>
    decodeRows (decodeSortKeyArray m size (decodeSingle (decodeSortKeyRecursive m.child t)))

/-- The child vectors of a struct (`DecodeSortKeyStruct`). -/
def decodeSortKeyChildren (m : OrderModifiers) : (ts : SortTypes) → BatchDecoder (ResultBodies ts)
  | .nil => fun _ _ keys v => pure (keys, v)
  | .cons t ts => decodeBoth (decodeSortKeyRecursive m t) (decodeSortKeyChildren m ts)

end

/-- The result vectors of the columns. -/
def ResultData : SortColumns → Type
  | [] => Unit
  | c :: cols => ResultVector c.1 × ResultData cols

/-- The columns are decoded one after the other (`DecodeSortKeyFunction`, `DecodeSortKey`). -/
def decodeSortKeys : (cols : SortColumns) → BatchDecoder (ResultData cols)
  | [] => fun _ _ keys v => pure (keys, v)
  | c :: cols => decodeBoth (decodeSortKeyRecursive c.2 c.1) (decodeSortKeys cols)

/-- The bytes of a key of type `BIGINT`, byte-swapped. -/
def bigintBytes (key : ℤ) : List UInt8 := bigEndian 8 (key % 2 ^ 64).toNat

/-! ## What vectors hold -/

/-- When a row of a vector holds a value, and when nothing was written to it. -/
structure VectorSpec (V X : Type) where
  Holds : V → ℕ → X → Prop
  Fresh : V → ℕ → Prop

namespace VectorSpec

variable {V W X Y : Type} (s : VectorSpec V X) (s' : VectorSpec W Y)

/-- A row is as before. -/
def Keeps (v v' : V) (r : ℕ) : Prop := (∀ x, s.Holds v r x → s.Holds v' r x) ∧ (s.Fresh v r → s.Fresh v' r)

/-- The rows from `start` on hold the values, and all others are as before. -/
def Filled (v v' : V) (start : ℕ) (xs : List X) : Prop := (∀ i x, xs[i]? = some x → s.Holds v' (start + i) x) ∧
    ∀ r, r < start ∨ start + xs.length ≤ r → s.Keeps v v' r

/-- The decoder reads the codes of values. -/
def DecodesRow (code : X → List UInt8) (decode : RowDecoder V) : Prop :=
  ∀ r x bytes v, s.Fresh v r → ∃ v', decode r (code x ++ bytes) v = .ok (bytes, v') ∧ s.Filled v v' r [x]

/-- The same for a batch. -/
def DecodesBatch (code : X → List UInt8) (decode : BatchDecoder V) : Prop :=
  ∀ offset count (x : ℕ → X) (rest keys : DecodeData) v,
    (∀ i < count, keys i = code (x i) ++ rest i) → (∀ i < count, s.Fresh v (offset + i)) →
      ∃ v', decode offset count keys v = .ok (fun i => if i < count then rest i else keys i, v') ∧
        s.Filled v v' offset ((range count).map x)

/-- Pairs of vectors. -/
def both : VectorSpec (V × W) (X × Y) where
  Holds v r x := s.Holds v.1 r x.1 ∧ s'.Holds v.2 r x.2
  Fresh v r := s.Fresh v.1 r ∧ s'.Fresh v.2 r

/-- Other values for the same vectors. -/
def comap (g : Y → X) : VectorSpec V Y where
  Holds v r y := s.Holds v r (g y)
  Fresh := s.Fresh

/-- Vectors of values, and their validity. -/
def leaf (g : X → Y) : VectorSpec ((ℕ → Bool) × (ℕ → Y)) (Option X) where
  Holds v r x := v.1 r = x.isSome ∧ ∀ p ∈ x, v.2 r = g p
  Fresh v r := v.1 r = true

/-- The validity of structs. -/
def validity : VectorSpec (ℕ → Bool) (Option X) where
  Holds v r x := v r = x.isSome
  Fresh v r := v r = true

/-- Lists of the values of a child vector. -/
def list : VectorSpec ((ℕ → Bool) × (ℕ → ℕ × ℕ) × ℕ × V) (Option (List X)) where
  Holds v r x := v.1 r = x.isSome ∧ ∀ l ∈ x, (v.2.1 r).2 = l.length ∧ (v.2.1 r).1 + (v.2.1 r).2 ≤ v.2.2.1 ∧
    ∀ i y, l[i]? = some y → s.Holds v.2.2.2 ((v.2.1 r).1 + i) y
  Fresh v r := v.1 r = true ∧ ∀ i, v.2.2.1 ≤ i → s.Fresh v.2.2.2 i

/-- The elements of an array. Those of a `NULL` are `NULL`. -/
def arrayItems {α : Type} {size : ℕ} : Option { l : List (Option α) // l.length = size } → List (Option α)
  | none => replicate size none
  | some x => x.1

/-- Arrays of the values of a child vector. -/
def array {α : Type} (s : VectorSpec V (Option α)) (size : ℕ) :
    VectorSpec ((ℕ → Bool) × V) (Option { l : List (Option α) // l.length = size }) where
  Holds v r x := v.1 r = x.isSome ∧ ∀ i y, (arrayItems x)[i]? = some y → s.Holds v.2 (size * r + i) y
  Fresh v r := v.1 r = true ∧ ∀ i < size, s.Fresh v.2 (size * r + i)

end VectorSpec

/-- The first field of a struct, which is `NULL` if the struct is. -/
def headField {t : SortType} {ts : SortTypes} (x : Option (Payloads (.cons t ts))) : Option (Payload t) :=
  x.bind fun p : Option (Payload t) × Payloads ts => p.1

/-- The other fields. -/
def tailFields {t : SortType} {ts : SortTypes} (x : Option (Payloads (.cons t ts))) : Option (Payloads ts) :=
  x.map fun p : Option (Payload t) × Payloads ts => p.2

mutual

/-- What result vectors hold. Strings are held as their bytes. -/
def resultSpec : (t : SortType) → VectorSpec (ResultVector t) (Option (Payload t))
  | .fixed _ => .leaf id
  | .varchar => .leaf stringBytes
  | .blob => .leaf id
  | .struct ts => (VectorSpec.validity.both (fieldsSpec ts)).comap fun x => (x, x)
  | .list t => (resultSpec t).list
  | .array t size => (resultSpec t).array size

/-- The fields of structs. Those of a `NULL` are `NULL`. -/
def fieldsSpec : (ts : SortTypes) → VectorSpec (ResultBodies ts) (Option (Payloads ts))
  | .nil => ⟨fun _ _ _ => True, fun _ _ => True⟩
  | .cons t ts =>
    ((resultSpec t).both (fieldsSpec ts)).comap fun x => (headField x, tailFields x)

end

/-- What the result vectors of the columns hold. -/
def rowSpec : (cols : SortColumns) → VectorSpec (ResultData cols) (SortRow cols)
  | [] => ⟨fun _ _ _ => True, fun _ _ => True⟩
  | c :: cols => (resultSpec c.1).both (rowSpec cols)

/-! ## Loops -/

namespace VectorSpec

variable {V W X Y : Type} {s : VectorSpec V X} {s' : VectorSpec W Y}

theorem Keeps.refl (v : V) (r : ℕ) : s.Keeps v v r := ⟨fun _ h => h, fun h => h⟩

theorem Keeps.trans {v₁ v₂ v₃ : V} {r : ℕ} (h : s.Keeps v₁ v₂ r) (h' : s.Keeps v₂ v₃ r) : s.Keeps v₁ v₃ r :=
  ⟨fun x hx => h'.1 x (h.1 x hx), fun hr => h'.2 (h.2 hr)⟩

theorem Filled.nil (v : V) (start : ℕ) : s.Filled v v start [] :=
  ⟨fun _ _ h => absurd h (by simp), fun r _ => .refl v r⟩

theorem Filled.cons {v₁ v₂ v₃ : V} {start : ℕ} {x : X} {xs : List X}
    (h : s.Filled v₁ v₂ start [x]) (h' : s.Filled v₂ v₃ (start + 1) xs) :
    s.Filled v₁ v₃ start (x :: xs) := by
  refine ⟨fun i y hy => ?_, fun r hr => ?_⟩
  · cases i with
    | zero => exact (h'.2 start (.inl (lt_succ_self _))).1 y (h.1 0 y hy)
    | succ i =>
      have := h'.1 i y hy
      rwa [Nat.add_right_comm] at this
  · rw [length_cons] at hr
    refine (h.2 r ?_).trans (h'.2 r ?_)
    · rw [length_singleton]
      omega
    · omega

/-- The rows that were fresh still are, but for the first one. -/
theorem Filled.fresh {v₁ v₂ : V} {start : ℕ} {x : X} (h : s.Filled v₁ v₂ start [x]) {r : ℕ}
    (hr : start < r) (hfr : s.Fresh v₁ r) : s.Fresh v₂ r :=
  (h.2 r (.inr hr)).2 hfr

variable {code : X → List UInt8}

theorem DecodesRow.foldlM {decode : RowDecoder V}
    (h : s.DecodesRow code decode) (offset : ℕ) (x : ℕ → X) (rest : DecodeData) (n : ℕ) :
    ∀ (k : ℕ) (keys : DecodeData) (v : V), (∀ i, k ≤ i → i < k + n → keys i = code (x i) ++ rest i) →
      (∀ i, k ≤ i → i < k + n → s.Fresh v (offset + i)) →
      ∃ v', (range' k n).foldlM (fun s i => do
          let (bytes, v) ← decode (offset + i) (s.1 i) s.2
          pure (update s.1 i bytes, v)) (keys, v) =
          .ok (fun i => if k ≤ i ∧ i < k + n then rest i else keys i, v') ∧
        s.Filled v v' (offset + k) ((range' k n).map x) := by
  induction n with
  | zero =>
    intro k keys v _ _
    refine ⟨v, ?_, .nil v _⟩
    have hkeys : (fun i => if k ≤ i ∧ i < k + 0 then rest i else keys i) = keys := by
      funext i
      exact if_neg (by omega)
    rw [hkeys]
    rfl
  | succ n ih =>
    intro k keys v hkeys hfr
    obtain ⟨v₁, hdec, hfill⟩ := h (offset + k) (x k) (rest k) v (hfr k le_rfl (by omega))
    have hkeys' : ∀ i, k + 1 ≤ i → i < k + 1 + n → update keys k (rest k) i = code (x i) ++ rest i := by
      intro i hi hi'
      rw [update_of_ne (by omega)]
      exact hkeys i (by omega) (by omega)
    obtain ⟨v', hloop, hfill'⟩ := ih (k + 1) _ v₁ hkeys' fun i hi hi' =>
      hfill.fresh (by omega) (hfr i (by omega) (by omega))
    refine ⟨v', ?_, hfill.cons hfill'⟩
    rw [range'_succ, foldlM_cons]
    dsimp only
    rw [hkeys k le_rfl (by omega), hdec]
    refine Eq.trans hloop (congrArg (fun keys => Except.ok (keys, v')) ?_)
    funext i
    by_cases hi : i = k
    · rw [if_neg (by omega), if_pos (by omega), hi, update_self]
    · rw [update_of_ne hi]
      exact if_congr (by omega) rfl rfl

theorem DecodesRow.rows {decode : RowDecoder V}
    (h : s.DecodesRow code decode) : s.DecodesBatch code (decodeRows decode) := by
  intro offset count x rest keys v hkeys hfr
  obtain ⟨v', hloop, hfill⟩ := h.foldlM offset x rest count 0 keys v
    (fun i _ hi => hkeys i (by omega)) fun i _ hi => hfr i (by omega)
  rw [← range_eq_range'] at hloop hfill
  refine ⟨v', ?_, hfill⟩
  rw [decodeRows, hloop]
  simp

variable {decode : BatchDecoder V}

theorem DecodesBatch.single (h : s.DecodesBatch code decode) : s.DecodesRow code (decodeSingle decode) := by
  intro r x bytes v hfr
  obtain ⟨v', hdec, hfill⟩ := h r 1 (fun _ => x) (fun _ => bytes) (fun _ => code x ++ bytes) v
    (fun _ _ => rfl) fun i hi => by rwa [lt_one_iff.1 hi]
  refine ⟨v', ?_, hfill⟩
  rw [decodeSingle, hdec]
  rfl

theorem DecodesBatch.comap (h : s.DecodesBatch code decode) (g : Y → X) :
    (s.comap g).DecodesBatch (fun y => code (g y)) decode := by
  intro offset count y rest keys v hkeys hfr
  obtain ⟨v', hdec, hfill⟩ := h offset count (fun i => g (y i)) rest keys v hkeys hfr
  refine ⟨v', hdec, fun i x hx => ?_, fun r hr => ?_⟩
  · rw [getElem?_map, map_eq_some_iff] at hx
    obtain ⟨k, hk, rfl⟩ := hx
    exact hfill.1 i _ (by rw [getElem?_map, hk, map_some])
  · rw [length_map] at hr
    have hkeep := hfill.2 r (by rwa [length_map])
    exact ⟨fun x => hkeep.1 (g x), hkeep.2⟩

theorem DecodesBatch.both {code' : Y → List UInt8} {decode' : BatchDecoder W} (h : s.DecodesBatch code decode)
    (h' : s'.DecodesBatch code' decode') :
    (s.both s').DecodesBatch (fun x => code x.1 ++ code' x.2) (decodeBoth decode decode') := by
  intro offset count x rest keys v hkeys hfr
  obtain ⟨v₁, hdec, hfill⟩ := h offset count (fun i => (x i).1)
    (fun i => code' (x i).2 ++ rest i) keys v.1
    (fun i hi => by rw [hkeys i hi, append_assoc]) fun i hi => (hfr i hi).1
  obtain ⟨v₂, hdec', hfill'⟩ := h' offset count (fun i => (x i).2) rest
    (fun i => if i < count then code' (x i).2 ++ rest i else keys i) v.2
    (fun i hi => if_pos hi) fun i hi => (hfr i hi).2
  refine ⟨(v₁, v₂), ?_, fun i y hy => ?_, fun r hr => ?_⟩
  · rw [decodeBoth, hdec]
    change (decode' offset count _ v.2 >>= fun p => pure (p.1, (v₁, p.2))) = _
    rw [hdec']
    refine congrArg (fun keys => Except.ok (keys, (v₁, v₂))) ?_
    funext i
    dsimp only
    by_cases hi : i < count
    · rw [if_pos hi, if_pos hi]
    · rw [if_neg hi, if_neg hi, if_neg hi]
  · rw [getElem?_map, map_eq_some_iff] at hy
    obtain ⟨k, hk, rfl⟩ := hy
    exact ⟨hfill.1 i _ (by rw [getElem?_map, hk, map_some]), hfill'.1 i _ (by rw [getElem?_map, hk, map_some])⟩
  · rw [length_map] at hr
    have hkeep := hfill.2 r (by rwa [length_map])
    have hkeep' := hfill'.2 r (by rwa [length_map])
    exact ⟨fun x hx => ⟨hkeep.1 _ hx.1, hkeep'.1 _ hx.2⟩, fun hx => ⟨hkeep.2 hx.1, hkeep'.2 hx.2⟩⟩

end VectorSpec

/-! ## Values -/

theorem flipBytes_eq_map (d : OrderType) (l : List UInt8) : d.flipBytes l = l.map d.flipByte := by
  cases d with
  | ascending => exact (map_id l).symm
  | descending => rfl

theorem flipByte_flipByte (d : OrderType) (b : UInt8) : d.flipByte (d.flipByte b) = b := by
  cases d with
  | ascending => rfl
  | descending => exact UInt8.not_not

theorem flipByte_injective (d : OrderType) : Function.Injective d.flipByte :=
  Function.LeftInverse.injective (flipByte_flipByte d)

theorem flipSign_flipSign (l : List UInt8) : flipSign (flipSign l) = l := by
  cases l with
  | nil => rfl
  | cons b l =>
    rw [flipSign, flipSign, UInt8.xor_assoc, UInt8.xor_self, UInt8.xor_zero]

theorem ofBigEndian_append (l l' : List UInt8) :
    ofBigEndian (l ++ l') = ofBigEndian l * 256 ^ l'.length + ofBigEndian l' := by
  induction l with
  | nil => simp [ofBigEndian]
  | cons b l ih =>
    rw [cons_append, ofBigEndian, ofBigEndian, ih, length_append, pow_add]
    ring

/-- The halves of an integer of 128 bits. -/
theorem ofNat_append_ofNat (bytes : List UInt8) (h : bytes.length = 16) :
    (BitVec.ofNat 64 (ofBigEndian (bytes.take 8)) ++
      BitVec.ofNat 64 (ofBigEndian (bytes.drop 8)) : BitVec 128) = BitVec.ofNat 128 (ofBigEndian bytes) := by
  have hlow := ofBigEndian_lt (bytes.drop 8)
  have hup := ofBigEndian_lt (bytes.take 8)
  have happ := ofBigEndian_append (bytes.take 8) (bytes.drop 8)
  rw [take_append_drop] at happ
  rw [length_drop, h] at hlow happ
  rw [length_take, h] at hup
  apply BitVec.eq_of_toNat_eq
  rw [BitVec.toNat_append, BitVec.toNat_ofNat, BitVec.toNat_ofNat, BitVec.toNat_ofNat, happ,
    mod_eq_of_lt (hlow.trans_eq (by norm_num)), mod_eq_of_lt (hup.trans_eq (by norm_num)),
    shiftLeft_eq, mod_eq_of_lt]
  · rw [← shiftLeft_eq, ← shiftLeft_add_eq_or_of_lt (hlow.trans_eq (by norm_num)), shiftLeft_eq]
    norm_num
  · norm_num at hlow hup ⊢
    omega

theorem decodeData_unsigned (width : IntegerWidth) (bytes : List UInt8) (h : bytes.length = width.bytes) :
    decodeData (.unsigned width) bytes = BitVec.ofNat (8 * width.bytes) (ofBigEndian bytes) := by
  cases width with
  | w128 => exact ofNat_append_ofNat bytes h
  | _ => rfl

theorem take_flipSign (n : ℕ) (l : List UInt8) : (flipSign l).take (n + 1) = flipSign (l.take (n + 1)) := by
  cases l <;> rfl

theorem drop_flipSign (n : ℕ) (l : List UInt8) : (flipSign l).drop (n + 1) = l.drop (n + 1) := by
  cases l <;> rfl

theorem decodeData_signed (width : IntegerWidth) (bytes : List UInt8) (h : bytes.length = width.bytes) :
    decodeData (.signed width) bytes = BitVec.ofNat (8 * width.bytes) (ofBigEndian (flipSign bytes)) := by
  cases width with
  | w128 =>
    have := ofNat_append_ofNat (flipSign bytes) ((length_flipSign bytes).trans h)
    rwa [take_flipSign, drop_flipSign] at this
  | _ => rfl

theorem decodeData_encodeData (t : FixedType) (x : t.Value) : decodeData t (encodeData t x) = x := by
  have hofNat : ∀ width : IntegerWidth, ∀ v : BitVec (8 * width.bytes),
      BitVec.ofNat (8 * width.bytes) (ofBigEndian (bigEndian width.bytes v.toNat)) = v := by
    intro width v
    rw [ofBigEndian_bigEndian, show 256 ^ width.bytes = 2 ^ (8 * width.bytes) by rw [pow_mul]; rfl,
      mod_eq_of_lt v.isLt, BitVec.ofNat_toNat, BitVec.setWidth_eq]
  cases t with
  | bool =>
    cases (show Bool from x) <;> rfl
  | unsigned width =>
    have hlen := length_encodeData (.unsigned width) x
    refine (decodeData_unsigned width _ hlen).trans (Eq.trans ?_ (hofNat width x))
    rw [encodeData_unsigned width x]
  | signed width =>
    have hlen := length_encodeData (.signed width) x
    refine (decodeData_signed width _ hlen).trans (Eq.trans ?_ (hofNat width x))
    rw [encodeData_signed width x, encodeSignedData, flipSign_flipSign]

theorem decodeConstant_encode (d : OrderType) (t : FixedType) (x : t.Value) (rest : List UInt8) :
    decodeConstant d t (d.flipBytes (encodeData t x) ++ rest) = .ok (x, rest) := by
  have hlen : (d.flipBytes (encodeData t x)).length = t.size := (length_flipBytes d _).trans (length_encodeData t x)
  rw [decodeConstant, if_neg (by rw [length_append]; omega), take_left' hlen,
    drop_left' hlen, flipBytes_eq_map, List.map_map,
    show d.flipByte ∘ d.flipByte = id from funext (flipByte_flipByte d), List.map_id,
    decodeData_encodeData]

theorem findIdx_delimiter {delimiter : UInt8} (l rest : List UInt8) (h : ∀ b ∈ l, b ≠ delimiter) :
    (l ++ delimiter :: rest).findIdx (· == delimiter) = l.length := by
  induction l with
  | nil => simp [findIdx_cons]
  | cons b l ih =>
    have hb : (b == delimiter) = false := beq_eq_false_iff_ne.2 (h b mem_cons_self)
    rw [cons_append, findIdx_cons, hb, cond_false, ih fun b hb => h b (mem_cons_of_mem _ hb), length_cons]

theorem decodeVarchar_encode (d : OrderType) (x : String) (rest : List UInt8) :
    decodeVarchar d (d.flipBytes (encodeVarchar (stringBytes x)) ++ rest) = .ok (stringBytes x, rest) := by
  have hbs : d.flipBytes (encodeVarchar (stringBytes x)) ++ rest =
      (stringBytes x).map (fun b => d.flipByte (b + 1)) ++ d.flipByte 0 :: rest := by
    rw [flipBytes_eq_map, encodeVarchar, map_append, List.map_map, append_assoc]
    rfl
  have hfind : ((stringBytes x).map (fun b => d.flipByte (b + 1)) ++
      d.flipByte 0 :: rest).findIdx (· == d.flipByte 0) =
        ((stringBytes x).map fun b => d.flipByte (b + 1)).length := by
    refine findIdx_delimiter _ _ fun b hb => ?_
    obtain ⟨c, hc, rfl⟩ := List.mem_map.1 hb
    intro heq
    have := toNat_add_one (stringBytes_ne x c hc)
    rw [flipByte_injective d heq] at this
    exact absurd this (by simp)
  rw [hbs]
  simp only [decodeVarchar]
  rw [hfind, if_neg (by rw [length_append, length_cons]; omega), take_left,
    ← drop_drop, drop_left, List.map_map, drop_succ_cons, drop_zero]
  refine congrArg (fun l => Except.ok (l, rest)) ?_
  refine (map_congr_left fun b _ => ?_).trans (List.map_id _)
  change d.flipByte (d.flipByte (b + 1)) - 1 = b
  rw [flipByte_flipByte, UInt8.add_sub_cancel]

/-- An escaped byte. -/
def escapeByte (b : UInt8) : List UInt8 := if b ≤ 1 then [1, b] else [b]

theorem encodeBlob_eq (data : List UInt8) : encodeBlob data = data.flatMap escapeByte ++ [0] := rfl

theorem blobEnd_delimiter (a e : UInt8) (l : List UInt8) : blobEnd a e (a :: l) = .ok (0, 0) := by
  rw [blobEnd.eq_def]
  exact if_pos rfl

theorem blobEnd_escape {a e : UInt8} (h : e ≠ a) (b : UInt8) (l : List UInt8) :
    blobEnd a e (e :: b :: l) = (blobEnd a e l).map fun p => (p.1 + 2, p.2 + 1) := by
  exact (if_neg h).trans (if_pos rfl)

theorem blobEnd_other {a e b : UInt8} (ha : b ≠ a) (he : b ≠ e) (l : List UInt8) :
    blobEnd a e (b :: l) = (blobEnd a e l).map fun p => (p.1 + 1, p.2 + 1) := by
  rw [blobEnd.eq_def]
  exact (if_neg ha).trans (if_neg he)

theorem blobBytes_escape (d : OrderType) (b : UInt8) (l : List UInt8) :
    blobBytes d (d.flipByte 1 :: b :: l) = d.flipByte b :: blobBytes d l := by
  exact if_pos rfl

theorem blobBytes_other {d : OrderType} {b : UInt8} (hb : b ≠ d.flipByte 1) (l : List UInt8) :
    blobBytes d (b :: l) = d.flipByte b :: blobBytes d l := by
  rw [blobBytes.eq_def]
  exact if_neg hb

/-- The delimiter of a blob is found behind its last byte. -/
theorem blobEnd_encode (d : OrderType) (data rest : List UInt8) : blobEnd (d.flipByte 0) (d.flipByte 1)
        ((data.flatMap escapeByte).map d.flipByte ++ d.flipByte 0 :: rest) =
      .ok ((data.flatMap escapeByte).length, data.length) := by
  induction data with
  | nil => exact blobEnd_delimiter _ _ _
  | cons b data ih =>
    rw [flatMap_cons, escapeByte, map_append, append_assoc, length_append]
    by_cases hb : b ≤ 1
    · rw [if_pos hb, map_cons, map_singleton, cons_append, singleton_append,
        blobEnd_escape ((flipByte_injective d).ne (by decide)), ih]
      simp [Except.map, Nat.add_comm]
    · have h0 : b ≠ 0 := by
        rintro rfl
        exact hb (by decide)
      have h1 : b ≠ 1 := fun h => hb h.le
      rw [if_neg hb, map_singleton, singleton_append,
        blobEnd_other ((flipByte_injective d).ne h0) ((flipByte_injective d).ne h1), ih]
      simp [Except.map, Nat.add_comm]

theorem blobBytes_encode (d : OrderType) (data : List UInt8) :
    blobBytes d ((data.flatMap escapeByte).map d.flipByte) = data := by
  induction data with
  | nil => rfl
  | cons b data ih =>
    rw [flatMap_cons, escapeByte, map_append]
    by_cases hb : b ≤ 1
    · rw [if_pos hb, map_cons, map_singleton, cons_append, singleton_append, blobBytes_escape, ih, flipByte_flipByte]
    · have h1 : b ≠ 1 := fun h => hb h.le
      rw [if_neg hb, map_singleton, singleton_append,
        blobBytes_other ((flipByte_injective d).ne h1), ih, flipByte_flipByte]

theorem decodeBlob_encode (d : OrderType) (x rest : List UInt8) :
    decodeBlob d (d.flipBytes (encodeBlob x) ++ rest) = .ok (x, rest) := by
  have hbs : d.flipBytes (encodeBlob x) ++ rest = (x.flatMap escapeByte).map d.flipByte ++ d.flipByte 0 :: rest := by
    rw [flipBytes_eq_map, encodeBlob_eq, map_append, append_assoc]
    rfl
  have hlen : ((x.flatMap escapeByte).map d.flipByte).length = (x.flatMap escapeByte).length := length_map _
  rw [hbs, decodeBlob, blobEnd_encode]
  change Except.ok (blobBytes d _, _) = _
  rw [take_left' hlen, blobBytes_encode, ← drop_drop, drop_left' hlen, drop_succ_cons, drop_zero]

/-! ## Rows -/

theorem validByte_ne (m : OrderModifiers) : UInt8.ofNat m.validByte ≠ UInt8.ofNat m.nullByte := by
  obtain ⟨d, n⟩ := m
  cases d <;> cases n <;> decide

theorem setInvalid_self (validity : ℕ → Bool) (r : ℕ) : setInvalid validity r r = false := by
  rw [setInvalid, update_self]

theorem setInvalid_of_ne (validity : ℕ → Bool) {r r' : ℕ} (h : r' ≠ r) : setInvalid validity r r' = validity r' := by
  rw [setInvalid, update_of_ne h]

namespace VectorSpec

variable {V X : Type} {s : VectorSpec V X}

theorem filled_singleton {v v' : V} {r : ℕ} {x : X} (h : s.Holds v' r x)
    (hoth : ∀ r', r' ≠ r → s.Keeps v v' r') : s.Filled v v' r [x] := by
  refine ⟨fun i y hy => ?_, fun r' hr' => hoth r' ?_⟩
  · obtain ⟨hi, rfl⟩ := List.getElem?_eq_some_iff.1 hy
    rw [length_singleton, lt_one_iff] at hi
    subst hi
    exact h
  · rw [length_singleton] at hr'
    omega

theorem decodesRow_leaf {α D : Type} (m : OrderModifiers) (g : α → D) {code : α → List UInt8}
    {decode : List UInt8 → Except DecodeError (D × List UInt8)}
    (h : ∀ x rest, decode (code x ++ rest) = .ok (g x, rest)) :
    (VectorSpec.leaf g).DecodesRow (encodeOption m [] code) (templatedDecodeSortKey m decode) := by
  intro r x bytes v hfr
  cases x with
  | none =>
    refine ⟨(setInvalid v.1 r, v.2), if_pos rfl, filled_singleton ?_ fun r' hr' => ?_⟩
    · exact ⟨setInvalid_self v.1 r, fun p hp => absurd hp (by simp)⟩
    · have hvldy := setInvalid_of_ne v.1 hr'
      exact ⟨fun x hx => ⟨hvldy.trans hx.1, hx.2⟩, fun hx => hvldy.trans hx⟩
  | some x =>
    refine ⟨(v.1, update v.2 r (g x)), ?_, filled_singleton ?_ fun r' hr' => ?_⟩
    · refine (if_neg (validByte_ne m)).trans ?_
      rw [show (code x).append bytes = code x ++ bytes from rfl, h]
      rfl
    · refine ⟨hfr, fun p hp => ?_⟩
      rw [← some_inj.1 hp]
      exact update_self r _ _
    · have hdata : update v.2 r (g x) r' = v.2 r' := update_of_ne hr' _ _
      exact ⟨fun x hx => ⟨hx.1, fun p hp => hdata.trans (hx.2 p hp)⟩, fun hx => hx⟩

theorem decodesRow_validity (m : OrderModifiers) :
    (validity (X := X)).DecodesRow (encodeOption m [] fun _ => []) (decodeValidity m) := by
  intro r x bytes v hfr
  cases x with
  | none =>
    refine ⟨setInvalid v r, congrArg (fun v => Except.ok (bytes, v)) (if_pos rfl),
      filled_singleton (setInvalid_self v r) fun r' hr' => ?_⟩
    have hvldy := setInvalid_of_ne v hr'
    exact ⟨fun x hx => hvldy.trans hx, fun hx => hvldy.trans hx⟩
  | some x =>
    exact ⟨v, congrArg (fun v => Except.ok (bytes, v)) (if_neg (validByte_ne m)),
      filled_singleton hfr fun r' _ => .refl v r'⟩

variable {code : X → List UInt8} {decode : RowDecoder V}

section

variable {delimiter : UInt8} (h : s.DecodesRow code decode) (hfst : ∀ x, ∃ b l, code x = b :: l ∧ b ≠ delimiter)

include h hfst

/-- The elements of a list are read up to the delimiter, which none of them starts with. -/
theorem DecodesRow.elements (xs : List X) :
    ∀ (fuel : ℕ) (bytes : List UInt8) (size : ℕ) (v : V), xs.length < fuel → (∀ i, size ≤ i → s.Fresh v i) →
      ∃ v', decodeElements delimiter decode fuel (xs.flatMap code ++ delimiter :: bytes) size v =
          .ok (bytes, size + xs.length, v') ∧
        s.Filled v v' size xs := by
  induction xs with
  | nil =>
    intro fuel bytes size v hfuel _
    obtain ⟨fuel, rfl⟩ := exists_eq_succ_of_ne_zero (Nat.ne_of_gt hfuel)
    exact ⟨v, if_pos rfl, .nil v size⟩
  | cons x xs ih =>
    intro fuel bytes size v hfuel hfr
    obtain ⟨fuel, rfl⟩ := exists_eq_succ_of_ne_zero (Nat.ne_of_gt (zero_lt_of_lt hfuel))
    obtain ⟨v₁, hdec, hfill⟩ := h size x (xs.flatMap code ++ delimiter :: bytes) v
      (hfr size le_rfl)
    obtain ⟨v', hloop, hfill'⟩ := ih fuel bytes (size + 1) v₁ (succ_lt_succ_iff.1 hfuel)
      fun i hi => hfill.fresh hi (hfr i (le_of_succ_le hi))
    refine ⟨v', ?_, hfill.cons hfill'⟩
    obtain ⟨b, l, hcode, hne⟩ := hfst x
    rw [hcode, cons_append] at hdec
    rw [flatMap_cons, append_assoc, hcode, cons_append]
    refine (if_neg hne).trans ?_
    rw [hdec]
    refine Eq.trans hloop ?_
    rw [length_cons, Nat.add_right_comm, Nat.add_assoc]

theorem DecodesRow.arrayElements (start : ℕ) (xs : List X) :
    ∀ (found : ℕ) (bytes : List UInt8) (v : V), (∀ i < xs.length, s.Fresh v (start + found + i)) →
      ∃ v', decodeArrayElements delimiter decode start xs.length found
          (xs.flatMap code ++ delimiter :: bytes) v = .ok (bytes, found + xs.length, v') ∧
        s.Filled v v' (start + found) xs := by
  induction xs with
  | nil =>
    intro found bytes v _
    refine ⟨v, ?_, .nil v _⟩
    change Except.ok (bytes, if delimiter = delimiter then found else found + 1, v) = _
    rw [if_pos rfl]
    rfl
  | cons x xs ih =>
    intro found bytes v hfr
    obtain ⟨v₁, hdec, hfill⟩ := h (start + found) x (xs.flatMap code ++ delimiter :: bytes) v
      (hfr 0 (zero_lt_succ _))
    obtain ⟨v', hloop, hfill'⟩ := ih (found + 1) bytes v₁ fun i hi =>
      hfill.fresh (by omega) (by
        have := hfr (i + 1) (succ_lt_succ hi)
        rwa [show start + found + (i + 1) = start + (found + 1) + i by omega] at this)
    refine ⟨v', ?_, hfill.cons hfill'⟩
    obtain ⟨b, l, hcode, hne⟩ := hfst x
    rw [hcode, cons_append] at hdec
    rw [flatMap_cons, append_assoc, hcode, cons_append]
    refine (if_neg hne).trans ?_
    rw [hdec]
    refine Eq.trans hloop ?_
    rw [length_cons, Nat.add_right_comm, Nat.add_assoc]

end

theorem decodesRow_list (m : OrderModifiers) (h : s.DecodesRow code decode)
    (hfst : ∀ x, ∃ b l, code x = b :: l ∧ b ≠ m.orderType.listDelimiter) :
    s.list.DecodesRow
      (encodeOption m [] fun l => l.flatMap code ++ [m.orderType.listDelimiter])
      (decodeSortKeyList m decode) := by
  intro r x bytes v hfr
  cases x with
  | none =>
    refine ⟨(setInvalid v.1 r, v.2), if_pos rfl, filled_singleton ?_ fun r' hr' => ?_⟩
    · exact ⟨setInvalid_self v.1 r, fun p hp => absurd hp (by simp)⟩
    · have hvldy := setInvalid_of_ne v.1 hr'
      exact ⟨fun x hx => ⟨hvldy.trans hx.1, hx.2⟩, fun hx => ⟨hvldy.trans hx.1, hx.2⟩⟩
  | some xs =>
    obtain ⟨validity, entries, size, child⟩ := v
    have hfuel : xs.length < (xs.flatMap code ++ m.orderType.listDelimiter :: bytes).length := by
      have hle := length_le_sum_of_one_le (xs.map fun x => (code x).length) fun n hn => by
        obtain ⟨x, -, rfl⟩ := List.mem_map.1 hn
        obtain ⟨b, l, hcode, -⟩ := hfst x
        rw [hcode]
        exact succ_pos _
      rw [length_map, ← length_flatMap] at hle
      rw [length_append, length_cons]
      omega
    obtain ⟨child', hloop, hfill⟩ := h.elements hfst xs _ bytes size child hfuel hfr.2
    refine ⟨(validity, update entries r (size, xs.length), size + xs.length, child'), ?_,
      filled_singleton ?_ fun r' hr' => ?_⟩
    · refine (if_neg (validByte_ne m)).trans ?_
      rw [show (xs.flatMap code ++ [m.orderType.listDelimiter]).append bytes =
        xs.flatMap code ++ m.orderType.listDelimiter :: bytes from
          append_assoc _ _ _, hloop]
      change Except.ok (bytes, validity, update entries r (size, size + xs.length - size),
        size + xs.length, child') = _
      rw [Nat.add_sub_cancel_left]
    · refine ⟨hfr.1, fun l hl => ?_⟩
      obtain rfl := some_inj.1 hl
      have hent : update entries r (size, xs.length) r = (size, xs.length) := by
        rw [update_self]
      change (update entries r (size, xs.length) r).2 = xs.length ∧ (update entries r (size, xs.length) r).1 +
          (update entries r (size, xs.length) r).2 ≤ size + xs.length ∧
        ∀ i y, xs[i]? = some y → s.Holds child' ((update entries r (size, xs.length) r).1 + i) y
      rw [hent]
      exact ⟨rfl, le_rfl, hfill.1⟩
    · -- the lists of other rows are before the one that is appended
      have hent : update entries r (size, xs.length) r' = entries r' := by
        rw [update_of_ne hr']
      refine ⟨fun x hx => ⟨hx.1, fun l hl => ?_⟩, fun hx => ⟨hx.1, fun i hi => ?_⟩⟩
      · obtain ⟨hlen, hle, hitems⟩ := hx.2 l hl
        change (update entries r (size, xs.length) r').2 = l.length ∧ (update entries r (size, xs.length) r').1 +
            (update entries r (size, xs.length) r').2 ≤ size + xs.length ∧
          ∀ i y, l[i]? = some y → s.Holds child' ((update entries r (size, xs.length) r').1 + i) y
        rw [hent]
        refine ⟨hlen, le_add_right_of_le hle, fun i y hy => ?_⟩
        have hi : i < l.length := (List.getElem?_eq_some_iff.1 hy).1
        rw [← hlen] at hi
        exact (hfill.2 _ (.inl ((Nat.add_lt_add_left hi _).trans_le hle))).1 y (hitems i y hy)
      · exact (hfill.2 i (.inr hi)).2 (hx.2 i ((Nat.le_add_right _ _).trans hi))

theorem length_arrayItems {α : Type} {size : ℕ}
    (x : Option { l : List (Option α) // l.length = size }) : (arrayItems x).length = size := by
  cases x with
  | none => exact length_replicate
  | some x => exact x.2

theorem decodesRow_array {α : Type} {s : VectorSpec V (Option α)} (m : OrderModifiers) (size : ℕ)
    {code : Option α → List UInt8} (h : s.DecodesRow code decode)
    (hfst : ∀ x, ∃ b l, code x = b :: l ∧ b ≠ m.orderType.listDelimiter) :
    (s.array size).DecodesRow
      (fun x => encodeOption m [] (fun _ => []) x ++ ((arrayItems x).flatMap code ++ [m.orderType.listDelimiter]))
      (decodeSortKeyArray m size decode) := by
  intro r x bytes v hfr
  obtain ⟨validity', hvldy, hfill⟩ := decodesRow_validity m r x
    ((arrayItems x).flatMap code ++ m.orderType.listDelimiter :: bytes) v.1 hfr.1
  obtain ⟨child', hloop, hitems⟩ := h.arrayElements hfst (size * r) (arrayItems x) 0 bytes v.2
    fun i hi => hfr.2 i (by rwa [length_arrayItems] at hi)
  rw [length_arrayItems, Nat.zero_add] at hloop
  refine ⟨(validity', child'), ?_, filled_singleton ?_ fun r' hr' => ?_⟩
  · rw [append_assoc, append_assoc, singleton_append, decodeSortKeyArray, hvldy]
    change (decodeArrayElements _ _ _ _ _ _ v.2 >>= _) = _
    rw [hloop]
    exact if_neg (not_not.2 rfl)
  · exact ⟨hfill.1 0 x rfl, hitems.1⟩
  · have hkeep := hfill.2 r' (by rw [length_singleton]; omega)
    -- the elements of different rows have different places
    have hch : ∀ i < size, s.Keeps v.2 child' (size * r' + i) := by
      intro i hi
      refine hitems.2 _ ?_
      rw [length_arrayItems, Nat.add_zero]
      rcases Nat.lt_or_gt_of_ne hr' with hlt | hlt
      iterate 2
        · have := Nat.mul_le_mul_left size (succ_le_of_lt hlt)
          rw [mul_succ] at this
          omega
    refine ⟨fun x hx => ⟨hkeep.1 x hx.1, fun i y hy => ?_⟩,
      fun hx => ⟨hkeep.2 hx.1, fun i hi => (hch i hi).2 (hx.2 i hi)⟩⟩
    have hi := (List.getElem?_eq_some_iff.1 hy).1
    rw [length_arrayItems] at hi
    exact (hch i hi).1 y (hx.2 i y hy)

theorem DecodesBatch.congr {code code' : X → List UInt8} {decode : BatchDecoder V}
    (h : s.DecodesBatch code decode) (hcode : ∀ x, code' x = code x) :
    s.DecodesBatch code' decode := by
  rwa [show code' = code from funext hcode]

theorem DecodesRow.congr {code code' : X → List UInt8}
    (h : s.DecodesRow code decode) (hcode : ∀ x, code' x = code x) : s.DecodesRow code' decode := by
  rwa [show code' = code from funext hcode]

theorem decodesBatch_empty : DecodesBatch (⟨fun _ _ _ => True, fun _ _ => True⟩ : VectorSpec V X) (fun _ => [])
      fun _ _ keys v => pure (keys, v) := by
  intro offset count x rest keys v hkeys _
  refine ⟨v, congrArg (fun keys => Except.ok (keys, v)) ?_, fun _ _ _ => trivial,
    fun _ _ => ⟨fun _ _ => trivial, fun _ => trivial⟩⟩
  funext i
  by_cases hi : i < count
  · rw [if_pos hi]
    exact hkeys i hi
  · rw [if_neg hi]

end VectorSpec

/-! ## Types -/

/-- The bytes of fields, which are `NULL` if the struct is. -/
def encodeFields (m : OrderModifiers) (ts : SortTypes) : Option (Payloads ts) → List UInt8
  | none => encodeNulls m ts
  | some x => encodePayloads m ts x

theorem encodeValue_structs (m : OrderModifiers) (ts : SortTypes) (x : Option (Payload (.struct ts))) :
    encodeValue m (.struct ts) x = encodeOption m [] (fun _ => []) x ++ encodeFields m.child ts x := by
  cases x <;> rfl

section

variable (m : OrderModifiers) (t : SortType)

theorem encodeFields_cons (ts : SortTypes) (x : Option (Payloads (.cons t ts))) :
    encodeFields m (.cons t ts) x = encodeValue m t (headField x) ++ encodeFields m ts (tailFields x) := by
  cases x <;> rfl

theorem encodeValue_arrays (size : ℕ) (x : Option (Payload (.array t size))) :
    encodeValue m (.array t size) x = encodeOption m [] (fun _ => []) x ++
      ((VectorSpec.arrayItems x).flatMap (encodeValue m.child t) ++ [m.orderType.listDelimiter]) := by
  cases x with
  | none =>
    have := flatMap_replicate (n := size) (a := (none : Option (Payload t)))
      (f := encodeValue m.child t)
    change _ = _ :: ((replicate size none).flatMap _ ++ _)
    rw [this]
    rfl
  | some x => rfl

theorem encodeValue_first (x : Option (Payload t)) :
    ∃ b l, encodeValue m.child t x = b :: l ∧ b ≠ m.orderType.listDelimiter := by
  obtain ⟨b, l, hcode, hne, -⟩ := encodeOption_first m.child (encodeNull m.child t)
    (encodePayload m.child t) x
  exact ⟨b, l, hcode, hne⟩

end

mutual

theorem decodesBatch_value (m : OrderModifiers) : (t : SortType) →
    (resultSpec t).DecodesBatch (encodeValue m t) (decodeSortKeyRecursive m t)
  | .fixed t => (VectorSpec.decodesRow_leaf m id (decodeConstant_encode m.orderType t)).rows
  | .varchar => (VectorSpec.decodesRow_leaf m stringBytes (decodeVarchar_encode m.orderType)).rows
  | .blob => (VectorSpec.decodesRow_leaf m id (decodeBlob_encode m.orderType)).rows
  | .struct ts =>
    (((VectorSpec.decodesRow_validity m).rows.both (decodesBatch_fields m.child ts)).comap
      fun x => (x, x)).congr (encodeValue_structs m ts)
  | .list t =>
    (VectorSpec.decodesRow_list m (decodesBatch_value m.child t).single (encodeValue_first m t)).rows
  | .array t size =>
    ((VectorSpec.decodesRow_array m size (decodesBatch_value m.child t).single
      (encodeValue_first m t)).congr (encodeValue_arrays m t size)).rows

theorem decodesBatch_fields (m : OrderModifiers) : (ts : SortTypes) →
    (fieldsSpec ts).DecodesBatch (encodeFields m ts) (decodeSortKeyChildren m ts)
  | .nil => VectorSpec.decodesBatch_empty.congr fun x => by cases x <;> rfl
  | .cons t ts =>
    (((decodesBatch_value m t).both (decodesBatch_fields m ts)).comap
      fun x => (headField x, tailFields x)).congr (encodeFields_cons m t ts)

end

/-- What was written for rows is read. -/
theorem decodesBatch_row : (cols : SortColumns) → (rowSpec cols).DecodesBatch (encodeRow cols) (decodeSortKeys cols)
  | [] => VectorSpec.decodesBatch_empty.congr fun _ => rfl
  | c :: cols => ((decodesBatch_value c.2 c.1).both (decodesBatch_row cols)).congr fun _ => rfl

/-! ## What a row holds is unique -/

namespace VectorSpec

variable {V W X Y : Type} {s : VectorSpec V X} {s' : VectorSpec W Y}

/-- A row does not hold two values. -/
def Functional (s : VectorSpec V X) : Prop := ∀ v r x y, s.Holds v r x → s.Holds v r y → x = y

theorem isSome_eq {α : Type} {x y : Option α} (h : x.isSome = y.isSome) :
    (x = none ∧ y = none) ∨ ∃ p q, x = some p ∧ y = some q := by
  cases x with
  | none =>
    cases y with
    | none => exact .inl ⟨rfl, rfl⟩
    | some y => exact absurd h (by simp)
  | some x =>
    cases y with
    | none => exact absurd h (by simp)
    | some y => exact .inr ⟨x, y, rfl, rfl⟩

theorem functional_leaf {g : X → Y} (hg : Function.Injective g) : (leaf g).Functional := by
  intro v r x y hx hy
  obtain ⟨rfl, rfl⟩ | ⟨p, q, rfl, rfl⟩ := isSome_eq (hx.1.symm.trans hy.1)
  · rfl
  · rw [hg ((hx.2 p rfl).symm.trans (hy.2 q rfl))]

theorem getElem?_eq_of_forall {α : Type} {l l' : List α} (hlen : l.length = l'.length)
    (h : ∀ (i : ℕ) x y, l[i]? = some x → l'[i]? = some y → x = y) : l = l' :=
  ext_getElem hlen fun i hi hi' =>
    h i _ _ (getElem?_eq_getElem hi) (getElem?_eq_getElem hi')

theorem Functional.list (h : s.Functional) : s.list.Functional := by
  intro v r x y hx hy
  obtain ⟨rfl, rfl⟩ | ⟨p, q, rfl, rfl⟩ := isSome_eq (hx.1.symm.trans hy.1)
  · rfl
  · obtain ⟨hlen, -, hitems⟩ := hx.2 p rfl
    obtain ⟨hlen', -, hitems'⟩ := hy.2 q rfl
    rw [getElem?_eq_of_forall (hlen.symm.trans hlen') fun i a b ha hb =>
      h _ _ a b (hitems i a ha) (hitems' i b hb)]

theorem Functional.array {α : Type} {s : VectorSpec V (Option α)} (h : s.Functional) (size : ℕ) :
    (s.array size).Functional := by
  intro v r x y hx hy
  have hitems : arrayItems x = arrayItems y :=
    getElem?_eq_of_forall ((length_arrayItems x).trans (length_arrayItems y).symm)
      fun i a b ha hb => h _ _ a b (hx.2 i a ha) (hy.2 i b hb)
  obtain ⟨rfl, rfl⟩ | ⟨p, q, rfl, rfl⟩ := isSome_eq (hx.1.symm.trans hy.1)
  · rfl
  · rw [Subtype.ext hitems]

end VectorSpec

theorem isSome_tailFields {t : SortType} {ts : SortTypes} (x : Option (Payloads (.cons t ts))) :
    (tailFields x).isSome = x.isSome := by
  cases x <;> rfl

mutual

theorem functional_value : (t : SortType) → (resultSpec t).Functional
  | .fixed _ => VectorSpec.functional_leaf injective_id
  | .varchar => VectorSpec.functional_leaf stringBytes_injective
  | .blob => VectorSpec.functional_leaf injective_id
  | .struct ts => fun v r x y hx hy =>
    functional_fields ts v.2 r x y (hx.1.symm.trans hy.1) hx.2 hy.2
  | .list t => (functional_value t).list
  | .array t size => (functional_value t).array size

theorem functional_fields : (ts : SortTypes) → ∀ v r x y, x.isSome = y.isSome →
    (fieldsSpec ts).Holds v r x → (fieldsSpec ts).Holds v r y → x = y
  | .nil, _, _, x, y, h, _, _ => by
    obtain ⟨rfl, rfl⟩ | ⟨p, q, rfl, rfl⟩ := VectorSpec.isSome_eq h <;> rfl
  | .cons t ts, v, r, x, y, h, hx, hy => by
    have hhead := functional_value t v.1 r (headField x) (headField y) hx.1 hy.1
    have htail := functional_fields ts v.2 r (tailFields x) (tailFields y)
      (by rw [isSome_tailFields, isSome_tailFields, h]) hx.2 hy.2
    obtain ⟨rfl, rfl⟩ | ⟨p, q, rfl, rfl⟩ := VectorSpec.isSome_eq h
    · rfl
    · exact congrArg some (Prod.ext hhead (some_inj.1 htail))

end

theorem functional_row : (cols : SortColumns) → (rowSpec cols).Functional
  | [] => fun _ _ _ _ _ _ => rfl
  | c :: cols => fun v r x y hx hy =>
    Prod.ext (functional_value c.1 v.1 r x.1 y.1 hx.1 hy.1)
      (functional_row cols v.2 r x.2 y.2 hx.2 hy.2)

/-! ## Keys -/

theorem bigEndian_ofBigEndian (l : List UInt8) : bigEndian l.length (ofBigEndian l) = l := by
  induction l with
  | nil => rfl
  | cons b l ih =>
    have hlt := ofBigEndian_lt l
    have hdiv : ofBigEndian (b :: l) / 256 ^ l.length = b.toNat := by
      rw [ofBigEndian, Nat.add_comm, add_mul_div_right _ _ (Nat.pos_of_ne_zero (by simp)),
        div_eq_of_lt hlt, Nat.zero_add]
    have hmod : ofBigEndian (b :: l) % 256 ^ l.length = ofBigEndian l := by
      rw [ofBigEndian, Nat.add_comm, add_mul_mod_self_right, mod_eq_of_lt hlt]
    rw [length_cons, bigEndian, hdiv, ← bigEndian_mod, hmod, ih, UInt8.ofNat_toNat]

/-- The bytes of a key of type `BIGINT` are those that were written. -/
theorem bigintBytes_bigintKey {key : List UInt8} (hlen : key.length ≤ 8)
    (hfst : key = [] ∨ ∃ b l, key = b :: l ∧ b.toNat ≤ 2) :
    bigintBytes (bigintKey key) = key ++ replicate (8 - key.length) 0 := by
  have hlt := ofBigEndian_lt (padded key)
  rw [length_padded hlen] at hlt
  have hmod : ((ofBigEndian (padded key) : ℤ) % 2 ^ 64).toNat = ofBigEndian (padded key) := by
    omega
  have hbs := bigEndian_ofBigEndian (padded key)
  rw [length_padded hlen] at hbs
  rw [bigintBytes, bigintKey_eq hlen hfst, hmod, hbs, padded]

/-- The keys of rows are decoded to these rows with all their bytes read, and are not longer than what was allocated. -/
theorem decode_create (cols : SortColumns) {data : SortData cols} {rowCount : ℕ}
    (h : data.NullsBelow cols rowCount) (rows : ℕ → ℕ) {offset count : ℕ}
    (hrows : ∀ i < count, rows i < rowCount) (result : ResultData cols)
    (hfresh : ∀ i < count, (rowSpec cols).Fresh result (offset + i)) :
    let key := createSortKeys cols data rowCount
    (∃ rest result', decodeSortKeys cols offset count (fun i => key (rows i)) result = .ok (rest, result') ∧
      ∀ i < count, rest i = [] ∧ ∀ x, (rowSpec cols).Holds result' (offset + i) x ↔ x = data.row cols (rows i)) ∧
    (ReturnsBigint cols → ∃ rest result', decodeSortKeys cols offset count
          (fun i => bigintBytes (bigintKey (key (rows i)))) result = .ok (rest, result') ∧
        ∀ i < count, rest i = replicate (8 - (key (rows i)).length) 0 ∧
          ∀ x, (rowSpec cols).Holds result' (offset + i) x ↔ x = data.row cols (rows i)) ∧
    ∀ r < rowCount, (key r).length ≤ keyLength cols data rowCount r ∧ (ReturnsBigint cols → (key r).length ≤ 8) := by
  intro key
  have hkey : ∀ r < rowCount, key r = encodeRow cols (data.row cols r) := fun r hr => createSortKeys_eq h hr
  have hshort : ReturnsBigint cols → ∀ r < rowCount, (key r).length ≤ 8 := by
    rintro ⟨size, hsz, hle⟩ r hr
    rw [hkey r hr]
    exact (length_encodeRow_le cols _ hsz).trans hle
  have hdec : ∀ keys tail : DecodeData, (∀ i < count, keys i = key (rows i) ++ tail i) →
      ∃ rest result', decodeSortKeys cols offset count keys result = .ok (rest, result') ∧
        ∀ i < count, rest i = tail i ∧
          ∀ x, (rowSpec cols).Holds result' (offset + i) x ↔ x = data.row cols (rows i) := by
    intro keys tail hkeys
    obtain ⟨result', heq, hfill⟩ := decodesBatch_row cols offset count
      (fun i => data.row cols (rows i)) tail keys result
      (fun i hi => by rw [hkeys i hi, hkey _ (hrows i hi)]) hfresh
    refine ⟨_, result', heq, fun i hi => ⟨if_pos hi, fun x => ?_⟩⟩
    have hhld := hfill.1 i (data.row cols (rows i))
      (by rw [getElem?_map, getElem?_range hi, map_some])
    exact ⟨fun hx => functional_row cols result' (offset + i) x _ hx hhld, fun hx => by rwa [hx]⟩
  refine ⟨?_, fun hbigint => ?_, fun r hr => ⟨length_le_keyLength h hr, fun hbigint =>
    hshort hbigint r hr⟩⟩
  · exact hdec _ (fun _ => []) fun i _ => (append_nil _).symm
  · refine hdec _ _ fun i hi => bigintBytes_bigintKey (hshort hbigint _ (hrows i hi)) ?_
    rw [hkey _ (hrows i hi)]
    exact encodeRow_first cols _

/-- Result vectors for structs, with nothing in them. -/
def structResult : ResultData structColumn := ((fun _ => true, (fun _ => true, fun _ => (0 : BitVec 8)),
    (fun _ => true, fun _ => (0, 0), 0, fun _ => true, fun _ => []), ()), ())

theorem structResult_fresh (r : ℕ) : (rowSpec structColumn).Fresh structResult r :=
  ⟨⟨rfl, rfl, ⟨rfl, fun _ _ => rfl⟩, trivial⟩, trivial⟩

theorem decode_create_structs : ∃ rest result', decodeSortKeys structColumn 0 2
      (fun i => createSortKeys structColumn structData 2 i) structResult = .ok (rest, result') ∧
        ∀ i < 2, rest i = [] ∧ ∀ x, (rowSpec structColumn).Holds result' (0 + i) x ↔
          x = structData.row structColumn i :=
  (decode_create structColumn structData_nullsBelow id (fun _ hi => hi) structResult
    fun i _ => structResult_fresh (0 + i)).1

end WfOpt

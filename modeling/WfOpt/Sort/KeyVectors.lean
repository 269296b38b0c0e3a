import WfOpt.Sort.KeyOrder

/-!
# Sort keys of vectors

Sort keys are written for all rows of a batch at once, column by column (`CreateSortKeyInternal`): first the lengths
of the keys are computed, then the keys are constructed. The elements of a list are consecutive rows of the child
vector, written to the key of the same row. Each row gets the bytes of its values (`createSortKeys_eq`), not more
than were allocated (`length_le_keyLength`).
-/

namespace WfOpt

open List Function

/-! ## Vectors -/

/-- `UnifiedVectorFormat`, without its data. -/
structure VectorFormat where
  sel : ℕ → ℕ
  validity : ℕ → Bool

/-- `RowIsValid`, for a row of the vector. -/
def VectorFormat.isValid (f : VectorFormat) (r : ℕ) : Bool := f.validity (f.sel r)

mutual

/-- The data of a vector of values, and its child vectors: a list is an offset and a length. -/
def VectorBody : SortType → Type
  | .fixed t => ℕ → t.Value
  | .varchar => ℕ → String
  | .blob => ℕ → List UInt8
  | .struct ts => VectorBodies ts
  | .list t => (ℕ → ℕ × ℕ) × VectorFormat × VectorBody t
  | .array t _ => VectorFormat × VectorBody t

/-- The child vectors of a struct. -/
def VectorBodies : SortTypes → Type
  | .nil => Unit
  | .cons t ts => (VectorFormat × VectorBody t) × VectorBodies ts

end

/-- `SortKeyVectorData`. -/
abbrev SortKeyVector (t : SortType) := VectorFormat × VectorBody t

/-- The rows of the child vector that are the elements of an array (`SortKeyArrayEntry`). -/
def arrayEntry (size idx : ℕ) : ℕ × ℕ := (size * idx, size)

/-- The value of a row, if it is valid. -/
def VectorFormat.nullable {α : Type*} (f : VectorFormat) (payload : ℕ → α) (r : ℕ) : Option α :=
  if f.isValid r then some (payload r) else none

mutual

/-- The value of a row of a vector that is not `NULL`. -/
def vectorPayload : (t : SortType) → SortKeyVector t → ℕ → Payload t
  | .fixed _, v, r => v.2 (v.1.sel r)
  | .varchar, v, r => v.2 (v.1.sel r)
  | .blob, v, r => v.2 (v.1.sel r)
  | .struct ts, v, r => vectorPayloads ts v.2 r
  | .list t, v, r =>
    let entry := v.2.1 (v.1.sel r)
    (range' entry.1 entry.2).map (v.2.2.1.nullable (vectorPayload t v.2.2))
  | .array t size, v, r =>
    ⟨(range' (size * v.1.sel r) size).map (v.2.1.nullable (vectorPayload t v.2)), by simp⟩

/-- The values of a row of the child vectors of a struct. -/
def vectorPayloads : (ts : SortTypes) → VectorBodies ts → ℕ → Payloads ts
  | .nil, _, _ => ()
  | .cons t ts, v, r => (v.1.1.nullable (vectorPayload t v.1) r, vectorPayloads ts v.2 r)

end

/-- The value of a row of a vector. -/
def vectorValue (t : SortType) (v : SortKeyVector t) : ℕ → Option (Payload t) := v.1.nullable (vectorPayload t v)

/-- The fields of a row are `NULL`. -/
def AllNull : (ts : SortTypes) → VectorBodies ts → ℕ → Prop
  | .nil, _, _ => True
  | .cons _ ts, v, r => v.1.1.isValid r = false ∧ AllNull ts v.2 r

mutual

/-- Where a struct or an array is `NULL`, its fields or elements are, too. -/
def NullsBelow : (t : SortType) → SortKeyVector t → ℕ → Prop
  | .struct ts, v, r => (v.1.isValid r = false → AllNull ts v.2 r) ∧ NullsBelows ts v.2 r
  | .list t, v, r => v.1.isValid r = true →
    ∀ i ∈ range' (v.2.1 (v.1.sel r)).1 (v.2.1 (v.1.sel r)).2, NullsBelow t v.2.2 i
  | .array t size, v, r =>
    (v.1.isValid r = false → ∀ i ∈ range' (size * v.1.sel r) size, v.2.1.isValid i = false) ∧
    ∀ i ∈ range' (size * v.1.sel r) size, NullsBelow t v.2 i
  | _, _, _ => True

/-- The same for the fields of a struct. -/
def NullsBelows : (ts : SortTypes) → VectorBodies ts → ℕ → Prop
  | .nil, _, _ => True
  | .cons t ts, v, r => NullsBelow t v.1 r ∧ NullsBelows ts v.2 r

end

/-! ## Construction -/

/-- `SortKeyChunk`: rows of a vector, and the row whose key they are for, if it is not their own. -/
structure SortKeyChunk where
  start : ℕ
  stop : ℕ
  resultIndex : Option ℕ

namespace SortKeyChunk

/-- The rows of the chunk. -/
def rows (chunk : SortKeyChunk) : List ℕ := range' chunk.start (chunk.stop - chunk.start)

/-- `GetResultIndex`. -/
def getResultIndex (chunk : SortKeyChunk) (r : ℕ) : ℕ := chunk.resultIndex.getD r

end SortKeyChunk

/-- The keys that are being written, by row. The offsets are their lengths. -/
abbrev SortKeys := ℕ → List UInt8

/-- Bytes are written to a key. -/
def SortKeys.write (keys : SortKeys) (i : ℕ) (bytes : List UInt8) : SortKeys := update keys i (keys i ++ bytes)

/-- The byte for the validity of a row. -/
def validityByte (m : OrderModifiers) (f : VectorFormat) (r : ℕ) : UInt8 :=
  UInt8.ofNat (if f.isValid r then m.validByte else m.nullByte)

/-- `TemplatedConstructSortKeyInternal`. -/
def templatedConstructSortKey (m : OrderModifiers) (f : VectorFormat) (encode : ℕ → List UInt8)
    (chunk : SortKeyChunk) (keys : SortKeys) : SortKeys :=
  chunk.rows.foldl (fun keys r =>
    if f.isValid r = false then keys.write (chunk.getResultIndex r) [UInt8.ofNat m.nullByte]
    else keys.write (chunk.getResultIndex r)
      (UInt8.ofNat m.validByte :: m.orderType.flipBytes (encode (f.sel r)))) keys

/-- The elements of a list are written, given how those of the child vector are, and then the
    delimiter. -/
def constructElements (m : OrderModifiers) (construct : SortKeyChunk → SortKeys → SortKeys)
    (entry : ℕ × ℕ) (i : ℕ) (keys : SortKeys) : SortKeys :=
  let keys := if 0 < entry.2 then construct ⟨entry.1, entry.1 + entry.2, some i⟩ keys else keys
  keys.write i [m.orderType.listDelimiter]

mutual

/-- `ConstructSortKeyRecursive`. The elements of an array are written also if it is `NULL`, and the fields of a list
    of structs struct by struct. -/
def constructSortKeyRecursive (m : OrderModifiers) :
    (t : SortType) → SortKeyVector t → SortKeyChunk → SortKeys → SortKeys
  | .fixed t, v, chunk, keys =>
    templatedConstructSortKey m v.1 (fun idx => encodeData t (v.2 idx)) chunk keys
  | .varchar, v, chunk, keys =>
    templatedConstructSortKey m v.1 (fun idx => encodeVarchar (stringBytes (v.2 idx))) chunk keys
  | .blob, v, chunk, keys =>
    templatedConstructSortKey m v.1 (fun idx => encodeBlob (v.2 idx)) chunk keys
  | .struct ts, v, chunk, keys =>
    match chunk.resultIndex with
    | some i =>
      chunk.rows.foldl (fun keys r => constructSortKeyChildren m.child ts v.2 ⟨r, r + 1, some i⟩
        (keys.write i [validityByte m v.1 r])) keys
    | none =>
      constructSortKeyChildren m.child ts v.2 chunk
        (chunk.rows.foldl (fun keys r => keys.write r [validityByte m v.1 r]) keys)
  | .list t, v, chunk, keys =>
    chunk.rows.foldl (fun keys r =>
      let i := chunk.getResultIndex r
      let keys := SortKeys.write keys i [validityByte m v.1 r]
      if v.1.isValid r = false then keys
      else constructElements m (constructSortKeyRecursive m.child t v.2.2) (v.2.1 (v.1.sel r)) i
        keys) keys
  | .array t size, v, chunk, keys =>
    chunk.rows.foldl (fun keys r =>
      let i := chunk.getResultIndex r
      constructElements m (constructSortKeyRecursive m.child t v.2) (arrayEntry size (v.1.sel r)) i
        (SortKeys.write keys i [validityByte m v.1 r])) keys

/-- The child vectors of a struct. -/
def constructSortKeyChildren (m : OrderModifiers) :
    (ts : SortTypes) → VectorBodies ts → SortKeyChunk → SortKeys → SortKeys
  | .nil, _, _, keys => keys
  | .cons t ts, v, chunk, keys =>
    constructSortKeyChildren m ts v.2 chunk (constructSortKeyRecursive m t v.1 chunk keys)

end

/-! ## Lengths -/

/-- The variable lengths of the keys, by row. -/
abbrev KeyLengths := ℕ → ℕ

/-- A length is increased. -/
def KeyLengths.add (lengths : KeyLengths) (i n : ℕ) : KeyLengths := update lengths i (lengths i + n)

/-- `SortKeyBlobOperator::GetEncodeLength`. -/
def blobEncodeLength (data : List UInt8) : ℕ := data.length + data.countP (· ≤ 1) + 1

/-- `TemplatedGetSortKeyLength`. -/
def templatedGetSortKeyLength (f : VectorFormat) (encodeLength : ℕ → ℕ) (chunk : SortKeyChunk)
    (lengths : KeyLengths) : KeyLengths :=
  chunk.rows.foldl (fun lengths r =>
    let lengths := KeyLengths.add lengths (chunk.getResultIndex r) 1
    if f.isValid r = false then lengths
    else lengths.add (chunk.getResultIndex r) (encodeLength (f.sel r))) lengths

/-- The length of a list, given how that of its elements is computed. -/
def elementsLength (getLength : SortKeyChunk → KeyLengths → KeyLengths) (entry : ℕ × ℕ) (i : ℕ)
    (lengths : KeyLengths) : KeyLengths :=
  let lengths := lengths.add i 1
  if 0 < entry.2 then getLength ⟨entry.1, entry.1 + entry.2, some i⟩ lengths else lengths

mutual

/-- `GetSortKeyLengthRecursive`. -/
def getSortKeyLengthRecursive : (t : SortType) → SortKeyVector t → SortKeyChunk → KeyLengths → KeyLengths
  | .fixed t, v, chunk, lengths => templatedGetSortKeyLength v.1 (fun _ => t.size) chunk lengths
  | .varchar, v, chunk, lengths =>
    templatedGetSortKeyLength v.1 (fun idx => (stringBytes (v.2 idx)).length + 1) chunk lengths
  | .blob, v, chunk, lengths =>
    templatedGetSortKeyLength v.1 (fun idx => blobEncodeLength (v.2 idx)) chunk lengths
  | .struct ts, v, chunk, lengths =>
    getSortKeyLengthChildren ts v.2 chunk
      (chunk.rows.foldl (fun lengths r => lengths.add (chunk.getResultIndex r) 1) lengths)
  | .list t, v, chunk, lengths =>
    chunk.rows.foldl (fun lengths r =>
      let i := chunk.getResultIndex r
      let lengths := KeyLengths.add lengths i 1
      if v.1.isValid r = false then lengths
      else elementsLength (getSortKeyLengthRecursive t v.2.2) (v.2.1 (v.1.sel r)) i lengths) lengths
  | .array t size, v, chunk, lengths =>
    chunk.rows.foldl (fun lengths r =>
      let i := chunk.getResultIndex r
      elementsLength (getSortKeyLengthRecursive t v.2) (arrayEntry size (v.1.sel r)) i
        (KeyLengths.add lengths i 1)) lengths

/-- The child vectors of a struct. -/
def getSortKeyLengthChildren : (ts : SortTypes) → VectorBodies ts → SortKeyChunk → KeyLengths → KeyLengths
  | .nil, _, _, lengths => lengths
  | .cons t ts, v, chunk, lengths =>
    getSortKeyLengthChildren ts v.2 chunk (getSortKeyLengthRecursive t v.1 chunk lengths)

end

/-- `SortKeyLengthInfo` -/
structure SortKeyLengthInfo where
  constantLength : ℕ
  variableLengths : KeyLengths

/-- `GetSortKeyLength`. A value of a constant size always takes all of its bytes. -/
def getSortKeyLength (rowCount : ℕ) : (t : SortType) → SortKeyVector t → SortKeyLengthInfo → SortKeyLengthInfo
  | .fixed t, _, info => { info with constantLength := info.constantLength + 1 + t.size }
  | t, v, info => { info with
      variableLengths := getSortKeyLengthRecursive t v ⟨0, rowCount, none⟩ info.variableLengths }

/-! ## Batches -/

/-- The vectors of the sort columns. -/
def SortData : SortColumns → Type
  | [] => Unit
  | c :: cols => SortKeyVector c.1 × SortData cols

/-- The values of a row. -/
def SortData.row : (cols : SortColumns) → SortData cols → ℕ → SortRow cols
  | [], _, _ => ()
  | c :: cols, data, r => (vectorValue c.1 data.1 r, SortData.row cols data.2 r)

/-- Fields and elements of what is `NULL` are `NULL`, in all rows of a batch. -/
def SortData.NullsBelow : (cols : SortColumns) → SortData cols → ℕ → Prop
  | [], _, _ => True
  | c :: cols, data, rowCount =>
    (∀ r < rowCount, WfOpt.NullsBelow c.1 data.1 r) ∧ SortData.NullsBelow cols data.2 rowCount

/-- The lengths computed by `CreateSortKeyInternal`. -/
def keyLengths (rowCount : ℕ) : (cols : SortColumns) → SortData cols → SortKeyLengthInfo → SortKeyLengthInfo
  | [], _, info => info
  | c :: cols, data, info => keyLengths rowCount cols data.2 (getSortKeyLength rowCount c.1 data.1 info)

/-- The length of the key of a row. -/
def keyLength (cols : SortColumns) (data : SortData cols) (rowCount r : ℕ) : ℕ :=
  let info := keyLengths rowCount cols data ⟨0, fun _ => 0⟩
  info.variableLengths r + info.constantLength

/-- `ConstructSortKey`, for all columns. -/
def constructSortKeys (rowCount : ℕ) : (cols : SortColumns) → SortData cols → SortKeys → SortKeys
  | [], _, keys => keys
  | c :: cols, data, keys =>
    constructSortKeys rowCount cols data.2
      (constructSortKeyRecursive c.2 c.1 data.1 ⟨0, rowCount, none⟩ keys)

/-- The keys written by `CreateSortKeyInternal`. -/
def createSortKeys (cols : SortColumns) (data : SortData cols) (rowCount : ℕ) : SortKeys :=
  constructSortKeys rowCount cols data fun _ => []

/-- The bytes of the columns, if all are of a constant size (`CreateSortKeyBind`). -/
def constantSize : SortColumns → Option ℕ
  | [] => some 0
  | (.fixed t, _) :: cols => (constantSize cols).map (· + (t.size + 1))
  | _ :: _ => none

/-- The result type is `BIGINT`. -/
def ReturnsBigint (cols : SortColumns) : Prop := ∃ size, constantSize cols = some size ∧ size ≤ 8

/-- A key of type `BIGINT`: the bytes are written to an integer that is zero, and byte-swapped afterwards. -/
def bigintKey (key : List UInt8) : ℤ := Int.bmod (ofBigEndian (key ++ replicate (8 - key.length) 0)) (2 ^ 64)

/-! ## What is written -/

/-- Each row of the chunk is for a key of its own. -/
def SortKeyChunk.Separate (chunk : SortKeyChunk) : Prop :=
  ∀ k, (chunk.rows.filter fun r => chunk.getResultIndex r = k).length ≤ 1

theorem SortKeyChunk.separate_of_none (start stop : ℕ) : SortKeyChunk.Separate ⟨start, stop, none⟩ := by
  intro k
  have hnd : (SortKeyChunk.rows ⟨start, stop, none⟩).Nodup := nodup_range'
  rw [show (fun r => decide (SortKeyChunk.getResultIndex ⟨start, stop, none⟩ r = k)) =
    fun r => r == k from rfl, ← countP_eq_length_filter]
  exact nodup_iff_count_le_one.1 hnd k

theorem SortKeyChunk.separate_of_single (r i : ℕ) : SortKeyChunk.Separate ⟨r, r + 1, some i⟩ := by
  intro k
  refine (length_filter_le _ _).trans ?_
  rw [rows, length_range']
  change r + 1 - r ≤ 1
  omega

namespace SortKeys

variable {keys : SortKeys} {i : ℕ}

theorem write_write (a b : List UInt8) : (keys.write i a).write i b = keys.write i (a ++ b) := by
  rw [write, write, write, update_self, update_idem, append_assoc]

/-- The rows of a chunk are written to the keys they are for. -/
def writeAll (keys : SortKeys) (chunk : SortKeyChunk) (bytes : ℕ → List UInt8) : SortKeys :=
  chunk.rows.foldl (fun keys r => keys.write (chunk.getResultIndex r) (bytes r)) keys

theorem writeAll_congr {chunk : SortKeyChunk} {f g : ℕ → List UInt8}
    (h : ∀ r ∈ chunk.rows, f r = g r) : keys.writeAll chunk f = keys.writeAll chunk g := by
  refine foldl_ext _ _ _ fun keys r hr => ?_
  rw [h r hr]

theorem writeAll_apply (chunk : SortKeyChunk) (f : ℕ → List UInt8) (k : ℕ) : keys.writeAll chunk f k =
      keys k ++ (chunk.rows.filter fun r => chunk.getResultIndex r = k).flatMap f := by
  rw [writeAll]
  generalize chunk.rows = rows
  induction rows generalizing keys with
  | nil => rw [foldl_nil, filter_nil, flatMap_nil, append_nil]
  | cons r rows ih =>
    rw [foldl_cons, ih, write]
    by_cases hk : chunk.getResultIndex r = k
    · rw [filter_cons, if_pos (decide_eq_true hk), flatMap_cons, hk, update_self, append_assoc]
    · rw [filter_cons, if_neg (by simpa using hk), update_of_ne (Ne.symm hk)]

theorem writeAll_writeAll {chunk : SortKeyChunk} (h : chunk.Separate) (f g : ℕ → List UInt8) :
    (keys.writeAll chunk f).writeAll chunk g = keys.writeAll chunk fun r => f r ++ g r := by
  funext k
  rw [writeAll_apply, writeAll_apply, writeAll_apply, append_assoc]
  have hlen := h k
  generalize chunk.rows.filter (fun r => chunk.getResultIndex r = k) = rows at *
  match rows with
  | [] => rfl
  | [r] => simp

/-- All rows are written to one key. -/
theorem writeAll_some (start stop : ℕ) (f : ℕ → List UInt8) : keys.writeAll ⟨start, stop, some i⟩ f =
      keys.write i ((range' start (stop - start)).flatMap f) := by
  funext k
  rw [writeAll_apply, write]
  by_cases hk : i = k
  · subst hk
    rw [update_self, filter_eq_self.2 fun r _ => by simp [SortKeyChunk.getResultIndex]]
    rfl
  · rw [update_of_ne (Ne.symm hk), filter_eq_nil_iff.2 fun r _ => by
      simp [SortKeyChunk.getResultIndex, hk], flatMap_nil, append_nil]

end SortKeys

theorem templatedConstructSortKey_eq (m : OrderModifiers) (f : VectorFormat)
    (encode : ℕ → List UInt8) (chunk : SortKeyChunk) (keys : SortKeys) :
    templatedConstructSortKey m f encode chunk keys = keys.writeAll chunk fun r =>
      encodeOption m [] (fun idx => m.orderType.flipBytes (encode idx)) (f.nullable f.sel r) := by
  refine foldl_ext _ _ _ fun keys r _ => ?_
  cases h : f.isValid r <;> simp [VectorFormat.nullable, h, encodeOption]

theorem constructElements_eq {m : OrderModifiers} {construct : SortKeyChunk → SortKeys → SortKeys}
    {entry : ℕ × ℕ} {bytes : ℕ → List UInt8} {i : ℕ} {keys : SortKeys}
    (h : construct ⟨entry.1, entry.1 + entry.2, some i⟩ keys =
      keys.writeAll ⟨entry.1, entry.1 + entry.2, some i⟩ bytes) :
    constructElements m construct entry i keys = keys.write i
      ((range' entry.1 entry.2).flatMap bytes ++ [m.orderType.listDelimiter]) := by
  rw [constructElements, h, SortKeys.writeAll_some, Nat.add_sub_cancel_left]
  split_ifs with hpos
  · rw [SortKeys.write_write]
  · rw [Nat.eq_zero_of_not_pos hpos]
    rfl

/-- The bytes of fields that are all `NULL`. -/
theorem encodePayloads_of_allNull (m : OrderModifiers) : (ts : SortTypes) → (v : VectorBodies ts) →
    (r : ℕ) → AllNull ts v r → encodePayloads m ts (vectorPayloads ts v r) = encodeNulls m ts
  | .nil, _, _, _ => rfl
  | .cons t ts, v, r, h => by
    have hnl : v.1.1.nullable (vectorPayload t v.1) r = none := by
      simp [VectorFormat.nullable, h.1]
    change encodeOption m (encodeNull m t) (encodePayload m t) (v.1.1.nullable _ r) ++
      encodePayloads m ts (vectorPayloads ts v.2 r) = _
    rw [encodePayloads_of_allNull m ts v.2 r h.2, hnl]
    rfl

variable {t : SortType} {v : SortKeyVector t} {r : ℕ}

theorem vectorValue_of_valid (h : v.1.isValid r = true) : vectorValue t v r = some (vectorPayload t v r) := if_pos h

theorem vectorValue_of_not_valid (h : v.1.isValid r = false) : vectorValue t v r = none := if_neg (by rw [h]; decide)

/-- The bytes of a struct: those of its fields come after the validity. -/
theorem encodeValue_struct (m : OrderModifiers) {ts : SortTypes} {v : SortKeyVector (.struct ts)}
    (h : NullsBelow (.struct ts) v r) :
    [validityByte m v.1 r] ++ encodePayloads m.child ts (vectorPayloads ts v.2 r) =
      encodeValue m (.struct ts) (vectorValue (.struct ts) v r) := by
  cases hvld : v.1.isValid r with
  | true =>
    rw [validityByte, hvld, vectorValue_of_valid hvld]
    rfl
  | false =>
    rw [validityByte, hvld, vectorValue_of_not_valid hvld, encodePayloads_of_allNull m.child ts v.2 r (h.1 hvld)]
    rfl

theorem encodeValue_list (m : OrderModifiers) {v : SortKeyVector (.list t)} (hvld : v.1.isValid r = true) :
    [validityByte m v.1 r] ++ ((range' (v.2.1 (v.1.sel r)).1 (v.2.1 (v.1.sel r)).2).flatMap
        (fun i => encodeValue m.child t (vectorValue t v.2.2 i)) ++ [m.orderType.listDelimiter]) =
      encodeValue m (.list t) (vectorValue (.list t) v r) := by
  rw [validityByte, hvld, vectorValue_of_valid hvld]
  change _ = UInt8.ofNat m.validByte :: (flatMap (encodeValue m.child t) (map (vectorValue t v.2.2) _) ++ _)
  rw [flatMap_map]
  rfl

/-- The bytes of an array: those of its elements come after the validity. -/
theorem encodeValue_array (m : OrderModifiers) {size : ℕ}
    {v : SortKeyVector (.array t size)} (h : NullsBelow (.array t size) v r) :
    [validityByte m v.1 r] ++ ((range' (size * v.1.sel r) size).flatMap
        (fun i => encodeValue m.child t (vectorValue t v.2 i)) ++ [m.orderType.listDelimiter]) =
      encodeValue m (.array t size) (vectorValue (.array t size) v r) := by
  cases hvld : v.1.isValid r with
  | true =>
    rw [validityByte, hvld, vectorValue_of_valid hvld]
    change _ = UInt8.ofNat m.validByte :: (flatMap (encodeValue m.child t) (map (vectorValue t v.2) _) ++ _)
    rw [flatMap_map]
    rfl
  | false =>
    have hnl : ∀ i ∈ range' (size * v.1.sel r) size, encodeValue m.child t (vectorValue t v.2 i) =
          UInt8.ofNat m.child.nullByte :: encodeNull m.child t :=
      fun i hi => congrArg (encodeValue m.child t)
        (vectorValue_of_not_valid (t := t) (v := v.2) (h.1 hvld i hi))
    rw [validityByte, hvld, vectorValue_of_not_valid hvld, flatMap_def,
      map_congr_left hnl, map_const', length_range']
    rfl

mutual

theorem constructSortKeyRecursive_eq (m : OrderModifiers) : (t : SortType) → (v : SortKeyVector t) →
    (chunk : SortKeyChunk) → (keys : SortKeys) → (∀ r ∈ chunk.rows, NullsBelow t v r) →
    constructSortKeyRecursive m t v chunk keys = keys.writeAll chunk fun r => encodeValue m t (vectorValue t v r)
  | .fixed t, v, chunk, keys, _ | .varchar, v, chunk, keys, _ | .blob, v, chunk, keys, _ => by
    rw [constructSortKeyRecursive, templatedConstructSortKey_eq]
    refine SortKeys.writeAll_congr fun r _ => ?_
    rw [vectorValue, encodeValue, VectorFormat.nullable, VectorFormat.nullable]
    cases v.1.isValid r <;> rfl
  | .struct ts, v, ⟨start, stop, none⟩, keys, h => by
    rw [constructSortKeyRecursive]
    simp only
    rw [constructSortKeyChildren_eq m.child ts v.2 _ _ (SortKeyChunk.separate_of_none start stop)
      fun r hr => (h r hr).2]
    refine (SortKeys.writeAll_writeAll (SortKeyChunk.separate_of_none start stop)
      (fun r => [validityByte m v.1 r]) _).trans ?_
    exact SortKeys.writeAll_congr fun r hr => encodeValue_struct m (h r hr)
  | .struct ts, v, ⟨start, stop, some i⟩, keys, h => by
    rw [constructSortKeyRecursive]
    refine foldl_ext _ _ _ fun keys r hr => ?_
    change _ = keys.write i (encodeValue m (.struct ts) (vectorValue (.struct ts) v r))
    rw [← encodeValue_struct m (h r hr), constructSortKeyChildren_eq m.child ts v.2 _ _
      (SortKeyChunk.separate_of_single r i) fun r' hr' => ?_, SortKeys.writeAll_some,
      Nat.add_sub_cancel_left, SortKeys.write_write, range'_one, flatMap_singleton]
    rw [SortKeyChunk.rows, Nat.add_sub_cancel_left, range'_one, mem_singleton] at hr'
    rw [hr']
    exact (h r hr).2
  | .list t, v, chunk, keys, h => by
    rw [constructSortKeyRecursive]
    refine foldl_ext _ _ _ fun keys r hr => ?_
    simp only
    cases hvld : v.1.isValid r with
    | true =>
      rw [if_neg (by decide), constructElements_eq (constructSortKeyRecursive_eq m.child t v.2.2 _ _
        fun i hi => h r hr hvld i ?_), SortKeys.write_write, encodeValue_list m hvld]
      rwa [SortKeyChunk.rows, Nat.add_sub_cancel_left] at hi
    | false =>
      rw [if_pos rfl, validityByte, hvld, vectorValue_of_not_valid hvld]
      rfl
  | .array t size, v, chunk, keys, h => by
    rw [constructSortKeyRecursive]
    refine foldl_ext _ _ _ fun keys r hr => ?_
    simp only
    rw [constructElements_eq (constructSortKeyRecursive_eq m.child t v.2 _ _
      fun i hi => (h r hr).2 i ?_), SortKeys.write_write, arrayEntry, encodeValue_array m (h r hr)]
    rwa [SortKeyChunk.rows, Nat.add_sub_cancel_left] at hi

theorem constructSortKeyChildren_eq (m : OrderModifiers) : (ts : SortTypes) → (v : VectorBodies ts) →
    (chunk : SortKeyChunk) → (keys : SortKeys) → chunk.Separate →
    (∀ r ∈ chunk.rows, NullsBelows ts v r) →
    constructSortKeyChildren m ts v chunk keys =
      keys.writeAll chunk fun r => encodePayloads m ts (vectorPayloads ts v r)
  | .nil, v, chunk, keys, _, _ => by
    have hnil : ∀ rows : List ℕ, rows.flatMap (fun r => encodePayloads m .nil (vectorPayloads .nil v r)) = [] :=
      fun _ => flatMap_eq_nil_iff.2 fun _ _ => rfl
    funext k
    rw [SortKeys.writeAll_apply, hnil, append_nil]
    rfl
  | .cons t ts, v, chunk, keys, hsep, h => by
    rw [constructSortKeyChildren, constructSortKeyRecursive_eq m t v.1 chunk keys
      fun r hr => (h r hr).1, constructSortKeyChildren_eq m ts v.2 chunk _ hsep
      fun r hr => (h r hr).2, SortKeys.writeAll_writeAll hsep]
    rfl

end

theorem filter_batch {rowCount r : ℕ} (hr : r < rowCount) : (SortKeyChunk.rows ⟨0, rowCount, none⟩).filter
      (fun k => SortKeyChunk.getResultIndex ⟨0, rowCount, none⟩ k = r) = [r] := by
  change (range' 0 (rowCount - 0)).filter (fun k => decide (k = r)) = [r]
  rw [filter_eq, count_eq_one_of_mem nodup_range' (by simp [hr])]
  rfl

variable {rowCount : ℕ}

theorem nullsBelow_of_batch (h : ∀ r < rowCount, NullsBelow t v r) :
    ∀ r ∈ SortKeyChunk.rows ⟨0, rowCount, none⟩, NullsBelow t v r := by
  intro r hr
  rw [SortKeyChunk.rows, mem_range'_1] at hr
  exact h r (by simpa using hr.2)

theorem constructSortKeys_eq (rowCount : ℕ) : (cols : SortColumns) → (data : SortData cols) →
    (keys : SortKeys) → data.NullsBelow cols rowCount →
    constructSortKeys rowCount cols data keys =
      keys.writeAll ⟨0, rowCount, none⟩ fun r => encodeRow cols (SortData.row cols data r)
  | [], data, keys, _ => by
    have hnil : ∀ rows : List ℕ, rows.flatMap (fun r => encodeRow [] (SortData.row [] data r)) = [] :=
      fun _ => flatMap_eq_nil_iff.2 fun _ _ => rfl
    funext k
    rw [SortKeys.writeAll_apply, hnil, append_nil]
    rfl
  | c :: cols, data, keys, h => by
    rw [constructSortKeys, constructSortKeyRecursive_eq c.2 c.1 data.1 _ keys
      (nullsBelow_of_batch h.1), constructSortKeys_eq rowCount cols data.2 _ h.2,
      SortKeys.writeAll_writeAll (SortKeyChunk.separate_of_none 0 rowCount)]
    rfl

/-- The key of a row has the bytes of its values. -/
theorem createSortKeys_eq {cols : SortColumns} {data : SortData cols}
    (h : data.NullsBelow cols rowCount) (hr : r < rowCount) :
    createSortKeys cols data rowCount r = encodeRow cols (data.row cols r) := by
  rw [createSortKeys, constructSortKeys_eq rowCount cols data _ h, SortKeys.writeAll_apply,
    filter_batch hr, flatMap_singleton, nil_append]

/-! ## What is allocated -/

namespace KeyLengths

variable {lengths : KeyLengths} {i : ℕ}

theorem add_add (a b : ℕ) : (lengths.add i a).add i b = lengths.add i (a + b) := by
  rw [add, add, add, update_self, update_idem, Nat.add_assoc]

/-- The lengths of the rows of a chunk are added. -/
def addAll (lengths : KeyLengths) (chunk : SortKeyChunk) (length : ℕ → ℕ) : KeyLengths :=
  chunk.rows.foldl (fun lengths r => lengths.add (chunk.getResultIndex r) (length r)) lengths

theorem addAll_congr {chunk : SortKeyChunk} {f g : ℕ → ℕ} (h : ∀ r ∈ chunk.rows, f r = g r) :
    lengths.addAll chunk f = lengths.addAll chunk g := by
  refine foldl_ext _ _ _ fun lengths r hr => ?_
  rw [h r hr]

theorem addAll_apply (chunk : SortKeyChunk) (f : ℕ → ℕ) (k : ℕ) : lengths.addAll chunk f k =
      lengths k + ((chunk.rows.filter fun r => chunk.getResultIndex r = k).map f).sum := by
  rw [addAll]
  generalize chunk.rows = rows
  induction rows generalizing lengths with
  | nil => rfl
  | cons r rows ih =>
    rw [foldl_cons, ih, add]
    by_cases hk : chunk.getResultIndex r = k
    · rw [filter_cons, if_pos (decide_eq_true hk), map_cons, sum_cons, hk, update_self, Nat.add_assoc]
    · rw [filter_cons, if_neg (by simpa using hk), update_of_ne (Ne.symm hk)]

theorem addAll_addAll (chunk : SortKeyChunk) (f g : ℕ → ℕ) :
    (lengths.addAll chunk f).addAll chunk g = lengths.addAll chunk fun r => f r + g r := by
  funext k
  rw [addAll_apply, addAll_apply, addAll_apply, sum_map_add, Nat.add_assoc]

theorem addAll_some (start stop : ℕ) (f : ℕ → ℕ) : lengths.addAll ⟨start, stop, some i⟩ f =
      lengths.add i ((range' start (stop - start)).map f).sum := by
  funext k
  rw [addAll_apply, add]
  by_cases hk : i = k
  · subst hk
    rw [update_self, filter_eq_self.2 fun r _ => by simp [SortKeyChunk.getResultIndex]]
    rfl
  · rw [update_of_ne (Ne.symm hk), filter_eq_nil_iff.2 fun r _ => by
      simp [SortKeyChunk.getResultIndex, hk], map_nil, sum_nil, Nat.add_zero]

end KeyLengths

theorem length_flipBytes (d : OrderType) (l : List UInt8) : (d.flipBytes l).length = l.length := by
  cases d
  · rfl
  · exact length_map _

theorem length_encodeBlob (data : List UInt8) : (encodeBlob data).length = blobEncodeLength data := by
  rw [encodeBlob, length_append, blobEncodeLength, length_singleton, Nat.add_right_cancel_iff]
  induction data with
  | nil => rfl
  | cons b data ih =>
    rw [flatMap_cons, length_append, ih, countP_cons, length_cons]
    split_ifs with hb hb' hb'
    · rw [length_cons, length_singleton]
      omega
    · exact absurd (decide_eq_true hb) hb'
    · exact absurd (of_decide_eq_true hb') hb
    · rw [length_singleton]
      omega

theorem templatedGetSortKeyLength_eq (m : OrderModifiers) {α : Type*} (f : VectorFormat)
    (data : ℕ → α) (encodeLength : ℕ → ℕ) (code : α → List UInt8)
    (h : ∀ idx, encodeLength idx = (code (data idx)).length) (chunk : SortKeyChunk)
    (lengths : KeyLengths) :
    templatedGetSortKeyLength f encodeLength chunk lengths = lengths.addAll chunk fun r =>
      (encodeOption m [] code (f.nullable (fun r => data (f.sel r)) r)).length := by
  refine foldl_ext _ _ _ fun lengths r _ => ?_
  cases hvld : f.isValid r with
  | true =>
    simp [VectorFormat.nullable, hvld, encodeOption, h, KeyLengths.add_add, Nat.add_comm]
  | false => simp [VectorFormat.nullable, hvld, encodeOption]

theorem elementsLength_eq {getLength : SortKeyChunk → KeyLengths → KeyLengths} {entry : ℕ × ℕ}
    {length : ℕ → ℕ} {i : ℕ} {lengths : KeyLengths}
    (h : ∀ lengths : KeyLengths, getLength ⟨entry.1, entry.1 + entry.2, some i⟩ lengths =
      lengths.addAll ⟨entry.1, entry.1 + entry.2, some i⟩ length) :
    elementsLength getLength entry i lengths = lengths.add i (((range' entry.1 entry.2).map length).sum + 1) := by
  rw [elementsLength, h, KeyLengths.addAll_some, Nat.add_sub_cancel_left]
  split_ifs with hpos
  · rw [KeyLengths.add_add, Nat.add_comm]
  · rw [Nat.eq_zero_of_not_pos hpos]
    rfl

mutual

theorem getSortKeyLengthRecursive_eq (m : OrderModifiers) : (t : SortType) →
    (v : SortKeyVector t) → (chunk : SortKeyChunk) → (lengths : KeyLengths) →
    (∀ r ∈ chunk.rows, NullsBelow t v r) →
    getSortKeyLengthRecursive t v chunk lengths =
      lengths.addAll chunk fun r => (encodeValue m t (vectorValue t v r)).length
  | .fixed t, v, chunk, lengths, _ =>
    templatedGetSortKeyLength_eq m v.1 v.2 _ (encodePayload m (.fixed t))
      (fun idx => by
        change _ = (m.orderType.flipBytes (encodeData t (v.2 idx))).length
        rw [length_flipBytes, length_encodeData]) chunk lengths
  | .varchar, v, chunk, lengths, _ =>
    templatedGetSortKeyLength_eq m v.1 v.2 _ (encodePayload m .varchar)
      (fun idx => by
        change _ = (m.orderType.flipBytes (encodeVarchar (stringBytes (v.2 idx)))).length
        rw [length_flipBytes, encodeVarchar, length_append, length_map, length_singleton]) chunk lengths
  | .blob, v, chunk, lengths, _ =>
    templatedGetSortKeyLength_eq m v.1 v.2 _ (encodePayload m .blob)
      (fun idx => by
        change _ = (m.orderType.flipBytes (encodeBlob (v.2 idx))).length
        rw [length_flipBytes, length_encodeBlob]) chunk lengths
  | .struct ts, v, chunk, lengths, h => by
    rw [getSortKeyLengthRecursive, getSortKeyLengthChildren_eq m.child ts v.2 _ _ fun r hr => (h r hr).2]
    refine (KeyLengths.addAll_addAll chunk (fun _ => 1) _).trans ?_
    refine KeyLengths.addAll_congr fun r hr => ?_
    rw [← encodeValue_struct m (h r hr), length_append, length_singleton]
  | .list t, v, chunk, lengths, h => by
    rw [getSortKeyLengthRecursive]
    refine foldl_ext _ _ _ fun lengths r hr => ?_
    simp only
    cases hvld : v.1.isValid r with
    | true =>
      rw [if_neg (by decide), elementsLength_eq fun lengths => getSortKeyLengthRecursive_eq m.child t
        v.2.2 _ lengths fun i hi => h r hr hvld i ?_, KeyLengths.add_add,
        ← encodeValue_list m hvld, length_append, length_append, length_flatMap]
      · rfl
      · rwa [SortKeyChunk.rows, Nat.add_sub_cancel_left] at hi
    | false =>
      rw [if_pos rfl, vectorValue_of_not_valid hvld]
      rfl
  | .array t size, v, chunk, lengths, h => by
    rw [getSortKeyLengthRecursive]
    refine foldl_ext _ _ _ fun lengths r hr => ?_
    simp only
    rw [elementsLength_eq fun lengths => getSortKeyLengthRecursive_eq m.child t v.2 _ lengths
      fun i hi => (h r hr).2 i ?_, KeyLengths.add_add, ← encodeValue_array m (h r hr),
      length_append, length_append, length_flatMap]
    · rfl
    · rwa [SortKeyChunk.rows, Nat.add_sub_cancel_left] at hi

theorem getSortKeyLengthChildren_eq (m : OrderModifiers) : (ts : SortTypes) →
    (v : VectorBodies ts) → (chunk : SortKeyChunk) → (lengths : KeyLengths) →
    (∀ r ∈ chunk.rows, NullsBelows ts v r) →
    getSortKeyLengthChildren ts v chunk lengths =
      lengths.addAll chunk fun r => (encodePayloads m ts (vectorPayloads ts v r)).length
  | .nil, v, chunk, lengths, _ => by
    have hnil : ∀ rows : List ℕ,
        (rows.map fun r => (encodePayloads m .nil (vectorPayloads .nil v r)).length).sum = 0 :=
      fun rows => sum_eq_zero fun n hn => by
        obtain ⟨r, -, rfl⟩ := mem_map.1 hn
        rfl
    funext k
    rw [KeyLengths.addAll_apply, hnil]
    rfl
  | .cons t ts, v, chunk, lengths, h => by
    rw [getSortKeyLengthChildren, getSortKeyLengthRecursive_eq m t v.1 chunk lengths
      fun r hr => (h r hr).1, getSortKeyLengthChildren_eq m ts v.2 chunk _
      fun r hr => (h r hr).2, KeyLengths.addAll_addAll]
    refine KeyLengths.addAll_congr fun r _ => ?_
    rw [← length_append]
    rfl

end

theorem length_encodeValue_fixed_le (m : OrderModifiers) (t : FixedType) :
    (x : Option (Payload (.fixed t))) → (encodeValue m (.fixed t) x).length ≤ t.size + 1
  | none => Nat.le_add_left 1 _
  | some x => (congrArg (· + 1) ((length_flipBytes m.orderType (encodeData t x)).trans (length_encodeData t x))).le

/-- The length computed for a column is at least that of its bytes. -/
theorem getSortKeyLength_ge (m : OrderModifiers)
    (h : ∀ r < rowCount, NullsBelow t v r) (info : SortKeyLengthInfo) (hr : r < rowCount) :
    info.variableLengths r + info.constantLength + (encodeValue m t (vectorValue t v r)).length ≤
      (getSortKeyLength rowCount t v info).variableLengths r +
        (getSortKeyLength rowCount t v info).constantLength := by
  have hrecursive : ∀ lengths : KeyLengths, getSortKeyLengthRecursive t v ⟨0, rowCount, none⟩ lengths r =
      lengths r + (encodeValue m t (vectorValue t v r)).length := by
    intro lengths
    rw [getSortKeyLengthRecursive_eq m t v _ lengths (nullsBelow_of_batch h),
      KeyLengths.addAll_apply, filter_batch hr, map_singleton, sum_singleton]
  cases t with
  | fixed t =>
    have hlen := length_encodeValue_fixed_le m t (vectorValue (.fixed t) v r)
    change _ ≤ info.variableLengths r + (info.constantLength + 1 + t.size)
    omega
  | _ =>
    simp only [getSortKeyLength, hrecursive]
    omega

theorem keyLengths_ge {rowCount r : ℕ} (hr : r < rowCount) : (cols : SortColumns) →
    (data : SortData cols) → (info : SortKeyLengthInfo) → data.NullsBelow cols rowCount →
    info.variableLengths r + info.constantLength + (encodeRow cols (data.row cols r)).length ≤
      (keyLengths rowCount cols data info).variableLengths r + (keyLengths rowCount cols data info).constantLength
  | [], _, _, _ => le_rfl
  | c :: cols, data, info, h => by
    have hcolumn := getSortKeyLength_ge c.2 h.1 info hr
    have hrst := keyLengths_ge hr cols data.2 (getSortKeyLength rowCount c.1 data.1 info) h.2
    rw [keyLengths]
    refine le_trans ?_ hrst
    change _ + (encodeValue c.2 c.1 (vectorValue c.1 data.1 r) ++
      encodeRow cols (SortData.row cols data.2 r)).length ≤ _
    rw [length_append]
    omega

/-- The bytes written for a row are not more than were allocated. -/
theorem length_le_keyLength {cols : SortColumns} {data : SortData cols}
    (h : data.NullsBelow cols rowCount) (hr : r < rowCount) :
    (createSortKeys cols data rowCount r).length ≤ keyLength cols data rowCount r := by
  have := keyLengths_ge hr cols data ⟨0, fun _ => 0⟩ h
  rw [createSortKeys_eq h hr, keyLength]
  simpa using this

/-! ## Integer keys -/

theorem length_encodeRow_le : (cols : SortColumns) → (x : SortRow cols) → {size : ℕ} →
    constantSize cols = some size → (encodeRow cols x).length ≤ size
  | [], _, _, _ => Nat.zero_le _
  | (.fixed t, m) :: cols, x, size, h => by
    rw [constantSize, Option.map_eq_some_iff] at h
    obtain ⟨size', h', rfl⟩ := h
    have hrst := length_encodeRow_le cols x.2 h'
    have hval := length_encodeValue_fixed_le m t x.1
    change (encodeValue m (.fixed t) x.1 ++ encodeRow cols x.2).length ≤ _
    rw [length_append]
    omega
  | (.varchar, _) :: _, _, _, h | (.blob, _) :: _, _, _, h | (.struct _, _) :: _, _, _, h
  | (.list _, _) :: _, _, _, h | (.array _ _, _) :: _, _, _, h => absurd h (by simp [constantSize])

theorem encodeRow_first : (cols : SortColumns) → (x : SortRow cols) →
    encodeRow cols x = [] ∨ ∃ b l, encodeRow cols x = b :: l ∧ b.toNat ≤ 2
  | [], _ => .inl rfl
  | c :: cols, x => by
    have hbs : ∀ n : OrderByNullType, (UInt8.ofNat (OrderModifiers.nullByte ⟨.ascending, n⟩)).toNat ≤ 2 ∧
        (UInt8.ofNat (OrderModifiers.validByte ⟨.ascending, n⟩)).toNat ≤ 2 := by
      intro n
      cases n <;> decide
    obtain ⟨x, xs⟩ := x
    cases x with
    | none => exact .inr ⟨_, _, rfl, (hbs c.2.nullType).1⟩
    | some x => exact .inr ⟨_, _, rfl, (hbs c.2.nullType).2⟩

/-- The bytes of a key of type `BIGINT`. -/
def padded (key : List UInt8) : List UInt8 := key ++ replicate (8 - key.length) 0

theorem length_padded {key : List UInt8} (h : key.length ≤ 8) : (padded key).length = 8 := by
  rw [padded, length_append, length_replicate]
  omega

theorem bmod_eq_of_lt {n : ℕ} (h : n < 2 ^ 63) : Int.bmod n (2 ^ 64) = n := by
  refine Int.bmod_eq_of_le ?_ ?_
  · norm_num
  · omega

/-- The integer is not negative. -/
theorem bigintKey_eq {key : List UInt8} (hlength : key.length ≤ 8)
    (hfst : key = [] ∨ ∃ b l, key = b :: l ∧ b.toNat ≤ 2) :
    bigintKey key = ofBigEndian (padded key) := by
  have hlt : ofBigEndian (padded key) < 2 ^ 63 := by
    rcases hfst with rfl | ⟨b, l, rfl, hb⟩
    · decide
    · have hrst := ofBigEndian_lt (l ++ replicate (8 - (b :: l).length) 0)
      have hlen : (l ++ replicate (8 - (b :: l).length) (0 : UInt8)).length = 7 := by
        have := length_padded hlength
        rw [padded, cons_append, length_cons] at this
        omega
      rw [padded, cons_append, ofBigEndian]
      rw [hlen] at hrst ⊢
      omega
  exact bmod_eq_of_lt hlt

section

variable {key key' : List UInt8} (hfree : PrefixFree key key') (hlen : key.length ≤ 8) (hlen' : key'.length ≤ 8)
  (hfst : key = [] ∨ ∃ b l, key = b :: l ∧ b.toNat ≤ 2) (hfst' : key' = [] ∨ ∃ b l, key' = b :: l ∧ b.toNat ≤ 2)

include hfree hlen hlen' hfst hfst'

/-- Signed integers of keys are ordered as the keys. -/
theorem bigintKey_lt_iff :
    bigintKey key < bigintKey key' ↔ key < key' := by
  rw [bigintKey_eq hlen hfst, bigintKey_eq hlen' hfst', Int.ofNat_lt,
    ← lt_iff_ofBigEndian_lt ((length_padded hlen).trans (length_padded hlen').symm), padded,
    padded, append_lt_append_iff hfree]
  refine or_iff_left fun h => ?_
  rw [h.1] at h
  exact lt_irrefl _ h.2

theorem bigintKey_inj :
    bigintKey key = bigintKey key' ↔ key = key' := by
  refine ⟨fun h => ?_, fun h => by rw [h]⟩
  have h₁ := (bigintKey_lt_iff hfree hlen hlen' hfst hfst').not.1 h.not_lt
  have h₂ := (bigintKey_lt_iff hfree.symm hlen' hlen hfst' hfst).not.1 h.not_gt
  exact le_antisymm (not_lt.1 h₂) (not_lt.1 h₁)

end

/-- The keys of two rows of any batches are ordered as `ORDER BY` orders the rows, equal for equal rows only, and not
    proper prefixes of each other. The same holds for the signed integers of keys of type `BIGINT`. -/
theorem sortKeys_embed_order (cols : SortColumns) {data data' : SortData cols}
    {rowCount rowCount' : ℕ} (h : data.NullsBelow cols rowCount)
    (h' : data'.NullsBelow cols rowCount') {r s : ℕ} (hr : r < rowCount) (hs : s < rowCount') :
    let key := createSortKeys cols data rowCount r
    let key' := createSortKeys cols data' rowCount' s
    let x := data.row cols r
    let y := data'.row cols s
    (key < key' ↔ orderByLt cols x y) ∧ (key = key' ↔ x = y) ∧ PrefixFree key key' ∧
      (ReturnsBigint cols → (bigintKey key < bigintKey key' ↔ orderByLt cols x y) ∧
        (bigintKey key = bigintKey key' ↔ x = y)) := by
  intro key key' x y
  have hkey : key = encodeRow cols x := createSortKeys_eq h hr
  have hkey' : key' = encodeRow cols y := createSortKeys_eq h' hs
  clear_value key key'
  subst hkey hkey'
  have hcode := orderedCode_row cols
  refine ⟨hcode.lt_iff x y, hcode.eq_iff x y, hcode.prefixFree x y, ?_⟩
  rintro ⟨size, hsz, hle⟩
  have hx := (length_encodeRow_le cols x hsz).trans hle
  have hy := (length_encodeRow_le cols y hsz).trans hle
  rw [bigintKey_lt_iff (hcode.prefixFree x y) hx hy (encodeRow_first cols x) (encodeRow_first cols y),
    bigintKey_inj (hcode.prefixFree x y) hx hy (encodeRow_first cols x) (encodeRow_first cols y)]
  exact ⟨hcode.lt_iff x y, hcode.eq_iff x y⟩

/-- A column of structs of an integer and a list of blobs, in descending order. -/
def structColumn : SortColumns := [(.struct (.cons (.fixed (.signed .w8)) (.cons (.list .blob) .nil)),
    ⟨.descending, .nullsLast⟩)]

/-- The rows `{-1, [NULL, '\x00']}` and `NULL`. -/
def structData : SortData structColumn := ((⟨id, fun i => i == 0⟩, (⟨id, fun i => i == 0⟩, fun _ => (-1 : BitVec 8)),
    (⟨id, fun i => i == 0⟩, fun _ => (0, 2), ⟨id, fun i => i == 1⟩, fun _ => [0]), ()), ())

theorem structData_nullsBelow : structData.NullsBelow structColumn 2 := by
  refine ⟨fun r _ => ⟨fun hnl => ⟨hnl, hnl, trivial⟩, trivial, fun _ i _ => ?_, trivial⟩, trivial⟩
  exact trivial

theorem sortKeys_embed_order_structs :
    createSortKeys structColumn structData 2 0 < createSortKeys structColumn structData 2 1 :=
  (sortKeys_embed_order structColumn structData_nullsBelow structData_nullsBelow (by decide)
    (by decide)).1.2 (.inl rfl)

end WfOpt

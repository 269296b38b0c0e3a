import WfOpt.Common.BSwap
import WfOpt.Lib.Memory
import WfOpt.Lib.TruncatedOrder
import WfOpt.Sort.KeyLayout

/-!
# Sort keys in memory

A key is one to four words that hold the first bytes of the blob, filled up with zeros and byte-swapped, so that
they compare as numbers. Keys of variable size have a size and a pointer as well: a blob that is longer than the
words is stored on the heap, and the size of one that is not is 0.

Among blobs of which none is a proper prefix of another, keys are ordered as the blobs (`SortKey.code_lt_code_iff`),
which are read from the heap, or from the words as long as these are swapped back.
-/

namespace WfOpt

open List

/-- `string_t` -/
structure StringT where
  bytes : List UInt8
  size_lt : bytes.length < 2 ^ 32

namespace StringT

/-- `string_t::INLINE_LENGTH` -/
def inlineLength : ℕ := 12

variable (s : StringT)

/-- `GetSize` -/
def size : ℕ := s.bytes.length

/-- `IsInlined` -/
def isInlined : Bool := decide (s.size ≤ inlineLength)

/-- `GetPrefix`, for an inlined string: its bytes are filled up with zeros. -/
def getPrefix : List UInt8 := truncate 0 inlineLength s.bytes

end StringT

/-! ## Layouts -/

namespace SortKeyType

/-- `PARTS` -/
def parts : SortKeyType → ℕ
  | noPayloadFixed8 => 1
  | noPayloadFixed16 => 2
  | noPayloadFixed24 => 3
  | noPayloadFixed32 => 4
  | noPayloadVariable32 => 2
  | payloadFixed16 => 1
  | payloadFixed24 => 2
  | payloadFixed32 => 3
  | payloadVariable32 => 1

/-- `INLINE_LENGTH` -/
def inlineLength : SortKeyType → ℕ
  | noPayloadFixed8 => 8
  | noPayloadFixed16 => 16
  | noPayloadFixed24 => 24
  | noPayloadFixed32 => 32
  | noPayloadVariable32 => 16
  | payloadFixed16 => 8
  | payloadFixed24 => 16
  | payloadFixed32 => 24
  | payloadVariable32 => 8

/-- `CONSTANT_SIZE` -/
def constantSize : SortKeyType → Bool
  | noPayloadVariable32 => false
  | payloadVariable32 => false
  | _ => true

theorem inlineLength_eq (t : SortKeyType) : t.inlineLength = 8 * t.parts := by cases t <;> rfl

theorem parts_pos (t : SortKeyType) : 0 < t.parts := by cases t <;> decide

/-- Keys of variable size have one or two words. -/
theorem parts_le_two {t : SortKeyType} (h : t.constantSize = false) : t.parts ≤ 2 := by
  cases t <;> first | exact Bool.noConfusion h | decide

end SortKeyType

/-! ## Words -/

/-- The bytes of words in memory. -/
def bytesOfWords (l : List (BitVec 64)) : List UInt8 := l.flatMap fun x => littleEndian 8 x.toNat

/-- The words that are stored as the bytes. -/
def wordsOfBytes : ℕ → List UInt8 → List (BitVec 64)
  | 0, _ => []
  | n + 1, l => wordOfBytes (l.take 8) :: wordsOfBytes n (l.drop 8)

theorem wordsOfBytes_succ (n : ℕ) (l : List UInt8) :
    wordsOfBytes (n + 1) l = wordOfBytes (l.take 8) :: wordsOfBytes n (l.drop 8) := rfl

theorem length_wordsOfBytes (n : ℕ) (l : List UInt8) : (wordsOfBytes n l).length = n := by
  induction n generalizing l with
  | zero => rfl
  | succ n ih => rw [wordsOfBytes, length_cons, ih]

/-- `SortKeyLessThan` -/
def sortKeyLessThan : List (BitVec 64) → List (BitVec 64) → Bool
  | [x], [y] => decide (x < y)
  | x :: xs, y :: ys => decide (x < y) || (x == y && sortKeyLessThan xs ys)
  | _, _ => false

theorem sortKeyLessThan_cons (x x' y y' : BitVec 64) (xs ys : List (BitVec 64)) :
    sortKeyLessThan (x :: x' :: xs) (y :: y' :: ys) =
      (decide (x < y) || (x == y && sortKeyLessThan (x' :: xs) (y' :: ys))) := rfl

/-- `TernaryCompare` -/
def ternaryCompare (x y : BitVec 64) : ℤ := (if y < x then 1 else 0) - (if x < y then 1 else 0)

/-- `memcmp`, for as many bytes of both -/
def memcmp : List UInt8 → List UInt8 → ℤ
  | x :: xs, y :: ys => if x = y then memcmp xs ys else if x < y then -1 else 1
  | _, _ => 0

/-! ## Keys -/

/-- `SortKey`. Those of fixed size have neither a size nor a pointer, those without payload no payload. -/
@[ext] structure SortKey (t : SortKeyType) where
  parts : List (BitVec 64)
  size : ℕ
  data : ℕ
  payload : ℕ
  length_parts : parts.length = t.parts

/-- The heap, and where the next blob goes. -/
structure KeyHeap where
  memory : Memory
  ptr : ℕ

namespace SortKey

variable {t : SortKeyType} (key : SortKey t)

/-- A loop over the words. -/
def mapParts (f : BitVec 64 → BitVec 64) : SortKey t :=
  { key with parts := key.parts.map f, length_parts := (length_map f).trans key.length_parts }

/-- `ByteSwap` -/
def byteSwap : SortKey t := key.mapParts bSwap

theorem parts_byteSwap : key.byteSwap.parts = key.parts.map bSwap := rfl

/-- `memcpy` to the words -/
def memcpyParts (src : List UInt8) : SortKey t := { key with
    parts := wordsOfBytes t.parts (src ++ (bytesOfWords key.parts).drop src.length)
    length_parts := length_wordsOfBytes _ _ }

/-- `FixedSortKey::Construct` -/
def constructFixed (str : StringT) : SortKey t := let key := key.mapParts fun _ => 0
  (if t.inlineLength ≤ StringT.inlineLength then key.memcpyParts (str.getPrefix.take t.inlineLength)
    else if str.isInlined then key.memcpyParts str.getPrefix
    else key.memcpyParts str.bytes).byteSwap

/-- `VariableSortKey::Construct` -/
def constructVariable (val : StringT) (heap : KeyHeap) : SortKey t × KeyHeap :=
  let key := { key.mapParts (fun _ => 0) with size := 0 }
  let key := (key.memcpyParts (val.bytes.take (min val.size t.inlineLength))).byteSwap
  if t.inlineLength < val.size then
    ({ key with size := val.size, data := heap.ptr }, ⟨heap.memory.write heap.ptr val.bytes, heap.ptr + val.size⟩)
  else (key, heap)

/-- `Construct` -/
def construct (val : StringT) (heap : KeyHeap) : SortKey t × KeyHeap :=
  if t.constantSize then (key.constructFixed val, heap) else key.constructVariable val heap

/-- `VariableSortKey::LessThan`; it throws for more than two words. -/
def compareParts : List (BitVec 64) → List (BitVec 64) → Option ℤ
  | [x], [y] => some (ternaryCompare x y)
  | [x₀, x₁], [y₀, y₁] => some (2 * ternaryCompare x₀ y₀ + ternaryCompare x₁ y₁)
  | _, _ => none

/-- `operator<` of `VariableSortKey` -/
def lessThanVariable (m : Memory) (lhs rhs : SortKey t) : Option Bool :=
  (compareParts lhs.parts rhs.parts).map fun compRes =>
    if compRes ≠ 0 then decide (compRes < 0)
    -- if either string is inlined, it is considered "less than"
    else if lhs.size ≤ t.inlineLength ∨ rhs.size ≤ t.inlineLength then decide (lhs.size < rhs.size)
    else
      let count := min lhs.size rhs.size
      let compRes := memcmp (m.read lhs.data count) (m.read rhs.data count)
      decide (compRes < 0) || (compRes == 0 && decide (lhs.size < rhs.size))

/-- `operator<` -/
def lessThan (m : Memory) (lhs rhs : SortKey t) : Option Bool :=
  if t.constantSize then some (sortKeyLessThan lhs.parts rhs.parts) else lhs.lessThanVariable m rhs

/-- `FixedSortKey::Deconstruct`. The string that is returned points to the words, unless it is inlined. -/
def deconstructFixed : List UInt8 × SortKey t := let key := key.byteSwap
  ((bytesOfWords key.parts).take t.inlineLength, key)

/-- `VariableSortKey::Deconstruct` -/
def deconstructVariable (m : Memory) : List UInt8 × SortKey t :=
  if t.inlineLength < key.size then (m.read key.data (key.size % 2 ^ 32), key)
  else
    let key := key.byteSwap
    ((bytesOfWords key.parts).take t.inlineLength, key)

/-- `Deconstruct` -/
def deconstruct (m : Memory) : List UInt8 × SortKey t :=
  if t.constantSize then key.deconstructFixed else key.deconstructVariable m

/-- `Reconstruct` -/
def reconstruct : SortKey t := if t.constantSize then key.byteSwap
  else if key.size ≤ t.inlineLength then key.byteSwap
  else key

end SortKey

/-! ## Rows -/

/-- `SortKeyComputeHeapSizes`: what a blob takes on the heap. -/
def SortKeyType.heapSize (t : SortKeyType) (val : StringT) : ℕ :=
  if t.constantSize then 0 else if t.inlineLength < val.size then val.size else 0

/-- A row to append: the memory its key goes to, the blob, and its heap location. -/
structure SortKeyRow (t : SortKeyType) where
  target : SortKey t
  val : StringT
  heapLocation : ℕ

/-- `TupleDataSortKeyScatter` -/
def sortKeyScatter {t : SortKeyType} : List (SortKeyRow t) → Memory → List (SortKey t) × Memory
  | [], m => ([], m)
  | row :: rows, m =>
    let (key, heap) := row.target.construct row.val ⟨m, row.heapLocation⟩
    let (keys, m) := sortKeyScatter rows heap.memory
    (key :: keys, m)

/-- `InitializeChunkStateInternal`: each row has its heap location behind that of the row before. -/
def heapLocations {t : SortKeyType} : ℕ → List (SortKey t × StringT) → List (SortKeyRow t)
  | _, [] => []
  | ptr, (target, val) :: rows => ⟨target, val, ptr⟩ :: heapLocations (ptr + t.heapSize val) rows

/-! ## Words and bytes -/

theorem ofBigEndian_eq (l : List UInt8) : ofBigEndian l = ofLittleEndian l.reverse := by
  induction l with
  | nil => rfl
  | cons b l ih =>
    rw [ofBigEndian, ih, reverse_cons, ofLittleEndian_append, ofLittleEndian, ofLittleEndian, length_reverse]
    ring

variable {l : List UInt8}

theorem toNat_wordOfBytes (hl : l.length = 8) : (wordOfBytes l).toNat = ofLittleEndian l := by
  refine (BitVec.toNat_ofNat _ _).trans (Nat.mod_eq_of_lt ?_)
  have hlt := ofLittleEndian_lt l
  rwa [hl] at hlt

theorem littleEndian_wordOfBytes (hl : l.length = 8) : littleEndian 8 (wordOfBytes l).toNat = l := by
  have h := littleEndian_ofLittleEndian l
  rwa [hl, ← toNat_wordOfBytes hl] at h

theorem bytesOfWords_wordsOfBytes {n : ℕ} (hl : l.length = 8 * n) : bytesOfWords (wordsOfBytes n l) = l := by
  induction n generalizing l with
  | zero => exact (length_eq_zero_iff.1 hl).symm
  | succ n ih =>
    have htake : (l.take 8).length = 8 := length_take_of_le (by omega)
    have hdrop : (l.drop 8).length = 8 * n := by rw [length_drop, hl]; omega
    have htail := ih hdrop
    rw [bytesOfWords] at htail ⊢
    rw [wordsOfBytes, flatMap_cons, htail, littleEndian_wordOfBytes htake, take_append_drop]

theorem toNat_bSwap_wordOfBytes (hl : l.length = 8) : (bSwap (wordOfBytes l)).toNat = ofBigEndian l := by
  rw [bSwap_wordOfBytes hl, toNat_wordOfBytes (l.length_reverse.trans hl), ofBigEndian_eq]

theorem map_bSwap_map_bSwap (l : List (BitVec 64)) : (l.map bSwap).map bSwap = l := by
  rw [map_map]
  exact (map_congr_left fun x _ => bSwap_bSwap x).trans (map_id l)

section Compare

variable {l l' : List UInt8}

theorem bSwap_lt_iff (hl : l.length = 8) (hl' : l'.length = 8) :
    bSwap (wordOfBytes l) < bSwap (wordOfBytes l') ↔ l < l' := by
  rw [BitVec.lt_def, toNat_bSwap_wordOfBytes hl, toNat_bSwap_wordOfBytes hl',
    lt_iff_ofBigEndian_lt (hl.trans hl'.symm)]

theorem bSwap_eq_iff (hl : l.length = 8) (hl' : l'.length = 8) :
    bSwap (wordOfBytes l) = bSwap (wordOfBytes l') ↔ l = l' := by
  constructor
  · intro h
    have hword := congrArg bSwap h
    rw [bSwap_bSwap, bSwap_bSwap] at hword
    rw [← littleEndian_wordOfBytes hl, hword, littleEndian_wordOfBytes hl']
  · intro h
    rw [h]

/-- Bytes are compared by the first eight of them, and by the rest if these are equal. -/
theorem lt_iff_take_eight (hl : 8 ≤ l.length) (hl' : 8 ≤ l'.length) :
    l < l' ↔ l.take 8 < l'.take 8 ∨ l.take 8 = l'.take 8 ∧ l.drop 8 < l'.drop 8 := by
  have hfree : PrefixFree (l.take 8) (l'.take 8) :=
    .of_length_eq (by rw [length_take_of_le hl, length_take_of_le hl'])
  have h := append_lt_append_iff (b := l.drop 8) (d := l'.drop 8) hfree
  rwa [take_append_drop, take_append_drop] at h

theorem eq_iff_take_eight : l = l' ↔ l.take 8 = l'.take 8 ∧ l.drop 8 = l'.drop 8 := by
  constructor
  · rintro rfl
    exact ⟨rfl, rfl⟩
  · rintro ⟨htake, hdrop⟩
    rw [← take_append_drop 8 l, htake, hdrop, take_append_drop]

theorem sortKeyLessThan_swapped (n : ℕ) (hl : l.length = 8 * (n + 1)) (hl' : l'.length = 8 * (n + 1)) :
    sortKeyLessThan ((wordsOfBytes (n + 1) l).map bSwap) ((wordsOfBytes (n + 1) l').map bSwap) =
      decide (l < l') := by
  induction n generalizing l l' with
  | zero =>
    have htake : l.take 8 = l := take_of_length_le (by omega)
    have htake' : l'.take 8 = l' := take_of_length_le (by omega)
    rw [wordsOfBytes, wordsOfBytes, wordsOfBytes, wordsOfBytes, htake, htake']
    exact decide_eq_decide.2 (bSwap_lt_iff hl hl')
  | succ n ih =>
    have htake : (l.take 8).length = 8 := length_take_of_le (by omega)
    have htake' : (l'.take 8).length = 8 := length_take_of_le (by omega)
    have htail := @ih (l.drop 8) (l'.drop 8) (by rw [length_drop, hl]; omega)
      (by rw [length_drop, hl']; omega)
    rw [wordsOfBytes_succ (n + 1) l, wordsOfBytes_succ (n + 1) l', map_cons, map_cons]
    rw [wordsOfBytes_succ n, wordsOfBytes_succ n, map_cons, map_cons] at htail ⊢
    rw [sortKeyLessThan_cons, htail, Bool.eq_iff_iff, decide_eq_true_iff, Bool.or_eq_true, Bool.and_eq_true,
      decide_eq_true_iff, decide_eq_true_iff, beq_iff_eq, bSwap_lt_iff htake htake',
      bSwap_eq_iff htake htake', lt_iff_take_eight (l := l) (by omega) (by omega)]

/-- The sign of a comparison. -/
def Compares (c : ℤ) (l l' : List UInt8) : Prop := (c < 0 ↔ l < l') ∧ (c = 0 ↔ l = l')

theorem ternaryCompare_swapped (hl : l.length = 8) (hl' : l'.length = 8) :
    (ternaryCompare (bSwap (wordOfBytes l)) (bSwap (wordOfBytes l')) = -1 ∧ l < l') ∨
      (ternaryCompare (bSwap (wordOfBytes l)) (bSwap (wordOfBytes l')) = 0 ∧ l = l') ∨
      (ternaryCompare (bSwap (wordOfBytes l)) (bSwap (wordOfBytes l')) = 1 ∧ l' < l) := by
  rw [ternaryCompare]
  simp only [bSwap_lt_iff hl hl', bSwap_lt_iff hl' hl]
  rcases lt_trichotomy l l' with h | h | h
  · exact .inl ⟨by rw [if_neg h.not_gt, if_pos h]; rfl, h⟩
  · exact .inr (.inl ⟨by rw [if_neg h.not_gt, if_neg h.not_lt]; rfl, h⟩)
  · exact .inr (.inr ⟨by rw [if_pos h, if_neg h.not_gt]; rfl, h⟩)

theorem compares_of_cases {c : ℤ} (h : (c < 0 ∧ l < l') ∨ (c = 0 ∧ l = l') ∨ (0 < c ∧ l' < l)) :
    Compares c l l' := by
  rcases h with ⟨hc, h⟩ | ⟨hc, h⟩ | ⟨hc, h⟩
  · exact ⟨iff_of_true hc h, iff_of_false hc.ne h.ne⟩
  · exact ⟨iff_of_false hc.not_lt h.not_lt, iff_of_true hc h⟩
  · exact ⟨iff_of_false hc.not_gt h.not_gt, iff_of_false hc.ne' h.ne'⟩

/-- A difference in the first word outweighs the second word. -/
theorem compareParts_swapped {n : ℕ} (hpos : 0 < n) (hn : n ≤ 2) (hl : l.length = 8 * n) (hl' : l'.length = 8 * n) :
    ∃ c, SortKey.compareParts ((wordsOfBytes n l).map bSwap) ((wordsOfBytes n l').map bSwap) = some c ∧
      Compares c l l' := by
  have htake : (l.take 8).length = 8 := length_take_of_le (by omega)
  have htake' : (l'.take 8).length = 8 := length_take_of_le (by omega)
  have hfst := ternaryCompare_swapped htake htake'
  rcases (by omega : n = 1 ∨ n = 2) with rfl | rfl
  · refine ⟨_, rfl, compares_of_cases ?_⟩
    rw [take_of_length_le (hl.le), take_of_length_le (hl'.le)] at hfst ⊢
    rcases hfst with ⟨hc, h⟩ | ⟨hc, h⟩ | ⟨hc, h⟩
    · exact .inl ⟨by rw [hc]; decide, h⟩
    · exact .inr (.inl ⟨hc, h⟩)
    · exact .inr (.inr ⟨by rw [hc]; decide, h⟩)
  · refine ⟨_, rfl, compares_of_cases ?_⟩
    have hdrop : (l.drop 8).length = 8 := by rw [length_drop, hl]
    have hdrop' : (l'.drop 8).length = 8 := by rw [length_drop, hl']
    have hsnd := ternaryCompare_swapped hdrop hdrop'
    rw [lt_iff_take_eight (l := l) (by omega) (by omega), lt_iff_take_eight (l := l') (by omega) (by omega),
      eq_iff_take_eight (l := l)]
    rw [take_of_length_le (hdrop.le), take_of_length_le (hdrop'.le)]
    rcases hfst with ⟨hc, h⟩ | ⟨hc, h⟩ | ⟨hc, h⟩
    · refine .inl ⟨?_, .inl h⟩
      rcases hsnd with ⟨hc', -⟩ | ⟨hc', -⟩ | ⟨hc', -⟩ <;> rw [hc, hc'] <;> decide
    · rw [hc]
      rcases hsnd with ⟨hc', h'⟩ | ⟨hc', h'⟩ | ⟨hc', h'⟩
      · exact .inl ⟨by rw [hc']; decide, .inr ⟨h, h'⟩⟩
      · exact .inr (.inl ⟨by rw [hc']; rfl, h, h'⟩)
      · exact .inr (.inr ⟨by rw [hc']; decide, .inr ⟨h.symm, h'⟩⟩)
    · refine .inr (.inr ⟨?_, .inl h⟩)
      rcases hsnd with ⟨hc', -⟩ | ⟨hc', -⟩ | ⟨hc', -⟩ <;> rw [hc, hc'] <;> decide

theorem memcmp_spec (h : l.length = l'.length) : Compares (memcmp l l') l l' := by
  induction l generalizing l' with
  | nil =>
    obtain rfl := length_eq_zero_iff.1 h.symm
    exact ⟨iff_of_false (lt_irrefl 0) (lt_irrefl _), iff_of_true rfl rfl⟩
  | cons x l ih =>
    cases l' with
    | nil => exact nomatch h
    | cons y l' =>
      rw [memcmp]
      refine compares_of_cases ?_
      rcases lt_trichotomy x y with hxy | rfl | hxy
      · rw [if_neg hxy.ne, if_pos hxy]
        exact .inl ⟨by decide, cons_lt_cons_iff.2 (.inl hxy)⟩
      · rw [if_pos rfl]
        have htail := ih (Nat.succ.inj h)
        rcases lt_trichotomy l l' with hlt | heq | hlt
        · exact .inl ⟨htail.1.2 hlt, cons_lt_cons_iff.2 (.inr ⟨rfl, hlt⟩)⟩
        · exact .inr (.inl ⟨htail.2.2 heq, congrArg (x :: ·) heq⟩)
        · refine .inr (.inr ⟨?_, cons_lt_cons_iff.2 (.inr ⟨rfl, hlt⟩)⟩)
          have hneg := mt htail.1.1 hlt.not_gt
          have hz := mt htail.2.1 hlt.ne'
          omega
      · rw [if_neg hxy.ne', if_neg hxy.not_gt]
        exact .inr (.inr ⟨by decide, cons_lt_cons_iff.2 (.inl hxy)⟩)

end Compare

/-! ## Construction -/

namespace SortKey

variable {t : SortKeyType} (key : SortKey t)

/-- The words of a key: the first bytes of the blob, filled up with zeros. -/
def inlineParts (t : SortKeyType) (bytes : List UInt8) : List (BitVec 64) :=
  (wordsOfBytes t.parts (truncate 0 t.inlineLength bytes)).map bSwap

theorem bytesOfWords_zero (l : List (BitVec 64)) : bytesOfWords (l.map fun _ => 0) = replicate (8 * l.length) 0 := by
  induction l with
  | nil => rfl
  | cons x l ih =>
    rw [bytesOfWords] at ih ⊢
    rw [map_cons, flatMap_cons, ih, length_cons, Nat.mul_succ, Nat.add_comm, replicate_add]
    rfl

theorem parts_memcpyParts {l : List (BitVec 64)} (hpts : key.parts = l.map fun _ => 0) {src : List UInt8}
    (hsrc : src.length ≤ t.inlineLength) :
    (key.memcpyParts src).parts = wordsOfBytes t.parts (truncate 0 t.inlineLength src) := by
  have hlen : 8 * l.length = t.inlineLength := by
    rw [t.inlineLength_eq, ← key.length_parts, hpts, length_map]
  dsimp only [memcpyParts]
  rw [hpts, bytesOfWords_zero, drop_replicate, hlen, truncate_eq, take_of_length_le hsrc]

theorem parts_constructFixed {str : StringT} (h : str.size ≤ t.inlineLength) :
    (key.constructFixed str).parts = inlineParts t str.bytes := by
  have hcopy : ∀ src : List UInt8, src.length ≤ t.inlineLength →
      truncate 0 t.inlineLength src = truncate 0 t.inlineLength str.bytes →
      (((key.mapParts fun _ => 0).memcpyParts src).byteSwap).parts = inlineParts t str.bytes := by
    intro src hsrc heq
    rw [inlineParts, ← heq, ← parts_memcpyParts (key.mapParts fun _ => 0) rfl hsrc]
    rfl
  rw [constructFixed]
  split_ifs with hshort hinl
  · refine hcopy _ (length_take_le _ _) ?_
    rw [truncate_take le_rfl]
    exact truncate_truncate (.inl hshort)
  · refine hcopy _ ?_ (truncate_truncate (.inr (of_decide_eq_true hinl)))
    exact (length_truncate _ _).trans_le (not_le.1 hshort).le
  · exact hcopy _ h rfl

/-- What a key stands for, with the blob on the heap if the words do not hold it. -/
structure BuiltFrom (m : Memory) (key : SortKey t) (val : StringT) : Prop where
  parts : key.parts = inlineParts t val.bytes
  fits : t.constantSize = true → val.size ≤ t.inlineLength
  size : t.constantSize = false → key.size = if t.inlineLength < val.size then val.size else 0
  heap : t.constantSize = false → t.inlineLength < val.size → m.read key.data val.size = val.bytes

theorem construct_spec {val : StringT} (heap : KeyHeap) (hfits : t.constantSize = true → val.size ≤ t.inlineLength) :
    BuiltFrom (key.construct val heap).2.memory (key.construct val heap).1 val := by
  rw [construct]
  cases hconst : t.constantSize with
  | true =>
    have hvar : t.constantSize ≠ false := by
      rw [hconst]
      exact Bool.noConfusion
    exact ⟨key.parts_constructFixed (hfits hconst), hfits, fun h => absurd h hvar, fun h => absurd h hvar⟩
  | false =>
    have hpts : (((SortKey.mk (key.mapParts fun _ => 0).parts 0 key.data key.payload
        (key.mapParts fun _ => 0).length_parts : SortKey t).memcpyParts
          (val.bytes.take (min val.size t.inlineLength))).byteSwap).parts = inlineParts t val.bytes := by
      have htake : val.bytes.take (min val.size t.inlineLength) = val.bytes.take t.inlineLength := by
        rw [min_comm]
        exact (take_eq_take_min ..).symm
      rw [inlineParts, htake, ← truncate_take (le_refl t.inlineLength) val.bytes,
        ← parts_memcpyParts (SortKey.mk (key.mapParts fun _ => 0).parts 0 key.data key.payload
          (key.mapParts fun _ => 0).length_parts : SortKey t) rfl (length_take_le _ _)]
      rfl
    rw [constructVariable]
    by_cases hlong : t.inlineLength < val.size
    · rw [if_pos hlong]
      refine ⟨hpts, hfits, fun _ => (if_pos hlong).symm, fun _ _ => ?_⟩
      exact heap.memory.read_write_self heap.ptr val.bytes
    · rw [if_neg hlong]
      exact ⟨hpts, hfits, fun _ => (if_neg hlong).symm, fun _ h => absurd h hlong⟩

/-- A key stays what it is as long as its part of the heap does. -/
theorem BuiltFrom.of_memory {m m' : Memory} {key : SortKey t} {val : StringT} (h : BuiltFrom m key val)
    (hrd : t.constantSize = false → t.inlineLength < val.size →
      m'.read key.data val.size = m.read key.data val.size) : BuiltFrom m' key val :=
  ⟨h.parts, h.fits, h.size, fun hvar hlong => (hrd hvar hlong).trans (h.heap hvar hlong)⟩

theorem data_construct {val : StringT} (heap : KeyHeap) (hvar : t.constantSize = false)
    (hlong : t.inlineLength < val.size) : (key.construct val heap).1.data = heap.ptr := by
  rw [construct, if_neg (by rw [hvar]; exact Bool.false_ne_true), constructVariable, if_pos hlong]

/-- No other bytes of the heap are written. -/
theorem memory_construct (val : StringT) (heap : KeyHeap) {i : ℕ}
    (hi : ¬(heap.ptr ≤ i ∧ i < heap.ptr + t.heapSize val)) :
    (key.construct val heap).2.memory i = heap.memory i := by
  rw [construct]
  rw [SortKeyType.heapSize] at hi
  split_ifs at hi ⊢ with hconst hlong
  · rfl
  · rw [constructVariable, if_pos hlong]
    refine heap.memory.write_of_disjoint ?_
    rw [StringT.size] at hi
    omega
  · rw [constructVariable, if_neg hlong]

/-! ## Comparison -/

/-- What a blob is compared by: what the words hold, and the whole blob if it is on the heap. -/
def code (t : SortKeyType) (val : StringT) : List UInt8 :=
  truncate 0 t.inlineLength val.bytes ++ if t.inlineLength < val.size then val.bytes else []

variable {m : Memory} {lhs rhs : SortKey t} {val val' : StringT}

/-- Two blobs on the heap are compared as a whole. -/
theorem memcmp_heap (h : m.read lhs.data val.size = val.bytes) (h' : m.read rhs.data val'.size = val'.bytes) :
    let count := min val.size val'.size
    let compRes := memcmp (m.read lhs.data count) (m.read rhs.data count)
    (decide (compRes < 0) || (compRes == 0 && decide (val.size < val'.size))) = true ↔ val.bytes < val'.bytes := by
  have hrd : m.read lhs.data (min val.size val'.size) = val.bytes.take (min val.size val'.size) := by
    rw [← h, m.take_read _ (min_le_left _ _)]
  have hrd' : m.read rhs.data (min val.size val'.size) = val'.bytes.take (min val.size val'.size) := by
    rw [← h', m.take_read _ (min_le_right _ _)]
  have hcmp := memcmp_spec ((m.length_read lhs.data (min val.size val'.size)).trans
    (m.length_read rhs.data (min val.size val'.size)).symm)
  dsimp only
  rw [Bool.or_eq_true, Bool.and_eq_true, decide_eq_true_iff, beq_iff_eq, decide_eq_true_iff, hcmp.1, hcmp.2,
    hrd, hrd']
  exact (lt_iff_take_min val.bytes val'.bytes).symm

theorem lessThanVariable_spec (hvar : t.constantSize = false) (h : BuiltFrom m lhs val)
    (h' : BuiltFrom m rhs val') : lhs.lessThanVariable m rhs = some (decide (code t val < code t val')) := by
  have hlen : ∀ bytes : List UInt8, (truncate 0 t.inlineLength bytes).length = 8 * t.parts := fun bytes =>
    (length_truncate _ _).trans t.inlineLength_eq
  obtain ⟨c, hc, hlt, heq⟩ := compareParts_swapped t.parts_pos (SortKeyType.parts_le_two hvar)
    (hlen val.bytes) (hlen val'.bytes)
  rw [lessThanVariable, h.parts, h'.parts, inlineParts, inlineParts, hc, Option.map_some]
  refine congrArg some ((Bool.eq_iff_iff).2 ?_)
  rw [decide_eq_true_iff, code, code,
    append_lt_append_iff (.of_length_eq ((hlen val.bytes).trans (hlen val'.bytes).symm))]
  by_cases hz : c = 0
  · rw [if_neg (not_not.2 hz), heq.1 hz, h.size hvar, h'.size hvar]
    rw [or_iff_right (lt_irrefl _), and_iff_right rfl]
    by_cases hlong : t.inlineLength < val.size <;> by_cases hlong' : t.inlineLength < val'.size
    · rw [if_pos hlong, if_pos hlong', if_neg (by omega), if_pos hlong, if_pos hlong']
      exact memcmp_heap (h.heap hvar hlong) (h'.heap hvar hlong')
    · rw [if_pos hlong, if_neg hlong', if_pos (.inr (Nat.zero_le _)), if_pos hlong, if_neg hlong',
        decide_eq_true_iff]
      exact iff_of_false (Nat.not_lt_zero _) (not_lt_nil _)
    · rw [if_neg hlong, if_pos hlong', if_pos (.inl (Nat.zero_le _)), if_neg hlong, if_pos hlong',
        decide_eq_true_iff, StringT.size]
      cases val'.bytes with
      | nil => exact iff_of_false (Nat.not_lt_zero _) (not_lt_nil _)
      | cons x l => exact iff_of_true (Nat.succ_pos _) (nil_lt_cons x l)
    · rw [if_neg hlong, if_neg hlong', if_pos (.inl (Nat.zero_le _)), if_neg hlong, if_neg hlong',
        decide_eq_true_iff]
      exact iff_of_false (Nat.not_lt_zero _) (not_lt_nil _)
  · rw [if_pos hz, decide_eq_true_iff, hlt]
    exact (or_iff_left fun h => hz (heq.2 h.1)).symm

theorem lessThan_spec (h : BuiltFrom m lhs val) (h' : BuiltFrom m rhs val') :
    lhs.lessThan m rhs = some (decide (code t val < code t val')) := by
  rw [lessThan]
  cases hconst : t.constantSize with
  | true =>
    have hlen : ∀ bytes : List UInt8, (truncate 0 t.inlineLength bytes).length = 8 * (t.parts - 1 + 1) := by
      intro bytes
      rw [Nat.sub_add_cancel t.parts_pos]
      exact (length_truncate _ _).trans t.inlineLength_eq
    have hcmp := sortKeyLessThan_swapped (t.parts - 1) (hlen val.bytes) (hlen val'.bytes)
    rw [Nat.sub_add_cancel t.parts_pos] at hcmp
    rw [if_pos rfl, h.parts, h'.parts, inlineParts, inlineParts, hcmp, code, code,
      if_neg (not_lt.2 (h.fits hconst)), if_neg (not_lt.2 (h'.fits hconst)), append_nil,
      append_nil]
  | false =>
    exact lessThanVariable_spec hconst h h'

/-- Zeros behind a blob do not count, as it is not a proper prefix of the other. -/
theorem code_lt_code_iff (t : SortKeyType) (hfree : PrefixFree val.bytes val'.bytes) :
    code t val < code t val' ↔ val.bytes < val'.bytes := by
  have hspl : ∀ v : StringT, code t v = v.bytes.take t.inlineLength ++
      (replicate (t.inlineLength - v.size) 0 ++ if t.inlineLength < v.size then v.bytes else []) := by
    intro v
    rw [code, truncate_eq, append_assoc]
    rfl
  have htake := hfree.take t.inlineLength
  have hbs := append_lt_append_iff (b := val.bytes.drop t.inlineLength)
    (d := val'.bytes.drop t.inlineLength) htake
  rw [take_append_drop, take_append_drop] at hbs
  rw [hspl, hspl, append_lt_append_iff htake]
  by_cases hlong : t.inlineLength < val.size <;> by_cases hlong' : t.inlineLength < val'.size
  · rw [if_pos hlong, if_pos hlong', Nat.sub_eq_zero_of_le hlong.le, Nat.sub_eq_zero_of_le hlong'.le,
      replicate_zero, nil_append, nil_append]
    constructor
    · rintro (h | ⟨-, h⟩)
      · exact hbs.2 (.inl h)
      · exact h
    · intro h
      exact (hbs.1 h).imp_right fun h' => ⟨h'.1, h⟩
  · rw [hbs]
    refine or_congr_right (and_congr_right fun heq => ?_)
    rw [take_of_length_le (not_lt.1 hlong')] at heq
    have hpre := take_prefix t.inlineLength val.bytes
    rw [heq] at hpre
    exact absurd (congrArg length (hfree.2 hpre)) (by rw [StringT.size] at hlong hlong'; omega)
  · rw [hbs]
    refine or_congr_right (and_congr_right fun heq => ?_)
    rw [take_of_length_le (not_lt.1 hlong)] at heq
    have hpre := take_prefix t.inlineLength val'.bytes
    rw [← heq] at hpre
    exact absurd (congrArg length (hfree.1 hpre)) (by rw [StringT.size] at hlong hlong'; omega)
  · rw [hbs]
    refine or_congr_right (and_congr_right fun heq => ?_)
    rw [take_of_length_le (not_lt.1 hlong), take_of_length_le (not_lt.1 hlong')] at heq
    rw [if_neg hlong, if_neg hlong', StringT.size, StringT.size, heq]
    exact iff_of_false (lt_irrefl _) (lt_irrefl _)

/-! ## Reading blobs -/

variable {key}

theorem deconstruct_spec (h : BuiltFrom m key val) : val.bytes <+: (key.deconstruct m).1 := by
  have hinline : val.size ≤ t.inlineLength →
      val.bytes <+: (bytesOfWords key.byteSwap.parts).take t.inlineLength := by
    intro hshort
    have hlen : (truncate 0 t.inlineLength val.bytes).length = 8 * t.parts :=
      (length_truncate _ _).trans t.inlineLength_eq
    have hpts : key.byteSwap.parts = wordsOfBytes t.parts (truncate 0 t.inlineLength val.bytes) := by
      rw [parts_byteSwap, h.parts, inlineParts, map_bSwap_map_bSwap]
    rw [hpts, bytesOfWords_wordsOfBytes hlen, take_of_length_le (length_truncate _ _).le,
      truncate_eq, take_of_length_le hshort]
    exact prefix_append _ _
  rw [deconstruct]
  cases hconst : t.constantSize with
  | true =>
    exact hinline (h.fits hconst)
  | false =>
    rw [if_neg Bool.false_ne_true, deconstructVariable, h.size hconst]
    by_cases hlong : t.inlineLength < val.size
    · have hsz : val.size % 2 ^ 32 = val.size := Nat.mod_eq_of_lt val.size_lt
      rw [if_pos hlong, if_pos hlong, hsz, h.heap hconst hlong]
    · rw [if_neg hlong, if_neg (Nat.not_lt_zero _)]
      exact hinline (not_lt.1 hlong)

theorem byteSwap_byteSwap (key : SortKey t) : key.byteSwap.byteSwap = key := by
  refine SortKey.ext ?_ rfl rfl rfl
  rw [parts_byteSwap, parts_byteSwap, map_bSwap_map_bSwap]

/-- Swapping back restores any key. -/
theorem reconstruct_deconstruct (m : Memory) (key : SortKey t) : (key.deconstruct m).2.reconstruct = key := by
  rw [deconstruct, reconstruct]
  cases t.constantSize with
  | true => exact key.byteSwap_byteSwap
  | false =>
    rw [if_neg Bool.false_ne_true, if_neg Bool.false_ne_true, deconstructVariable]
    by_cases hlong : t.inlineLength < key.size
    · rw [if_pos hlong, if_neg (not_le.2 hlong)]
    · rw [if_neg hlong]
      rw [if_pos (show key.byteSwap.size ≤ t.inlineLength from not_lt.1 hlong)]
      exact key.byteSwap_byteSwap

end SortKey

/-! ## Tables of keys -/

section Scatter

variable {t : SortKeyType}

namespace SortKeyRow

/-- The row has this byte of the heap. -/
def OnHeap (row : SortKeyRow t) (i : ℕ) : Prop := row.heapLocation ≤ i ∧ i < row.heapLocation + t.heapSize row.val

/-- The rows do not share bytes of the heap. -/
def HeapDisjoint (row row' : SortKeyRow t) : Prop := ∀ i, ¬(row.OnHeap i ∧ row'.OnHeap i)

end SortKeyRow

theorem length_sortKeyScatter (rows : List (SortKeyRow t)) (m : Memory) :
    (sortKeyScatter rows m).1.length = rows.length := by
  induction rows generalizing m with
  | nil => rfl
  | cons row rows ih => exact congrArg (· + 1) (ih _)

theorem memory_sortKeyScatter (rows : List (SortKeyRow t)) (m : Memory) {i : ℕ}
    (hi : ∀ row ∈ rows, ¬row.OnHeap i) : (sortKeyScatter rows m).2 i = m i := by
  induction rows generalizing m with
  | nil => rfl
  | cons row rows ih =>
    refine (ih _ fun row' h => hi row' (mem_cons_of_mem _ h)).trans ?_
    exact row.target.memory_construct row.val ⟨m, row.heapLocation⟩ (hi row mem_cons_self)

/-- Every row gets the key of its blob. -/
theorem sortKeyScatter_spec {rows : List (SortKeyRow t)} (m : Memory) (hheap : rows.Pairwise SortKeyRow.HeapDisjoint)
    (hfits : t.constantSize = true → ∀ row ∈ rows, row.val.size ≤ t.inlineLength) :
    ∀ p ∈ rows.zip (sortKeyScatter rows m).1, p.2.BuiltFrom (sortKeyScatter rows m).2 p.1.val := by
  induction rows generalizing m with
  | nil => exact fun p hp => nomatch hp
  | cons row rows ih =>
    rw [pairwise_cons] at hheap
    have hbt := row.target.construct_spec ⟨m, row.heapLocation⟩ fun h => hfits h row mem_cons_self
    intro p hp
    rcases mem_cons.1 hp with rfl | hp
    · refine hbt.of_memory fun hvar hlong => ?_
      refine Memory.read_congr fun i hi => memory_sortKeyScatter rows _ fun row' hrow' honheap => ?_
      rw [row.target.data_construct _ hvar hlong] at honheap
      refine hheap.1 row' hrow' _ ⟨⟨Nat.le_add_right _ _, ?_⟩, honheap⟩
      rw [SortKeyType.heapSize, if_neg (by rw [hvar]; exact Bool.false_ne_true), if_pos hlong]
      exact Nat.add_lt_add_left hi _
    · exact ih _ hheap.2 (fun h row' hrow' => hfits h row' (mem_cons_of_mem _ hrow')) p hp

theorem heapLocations_disjoint (ptr : ℕ) (rows : List (SortKey t × StringT)) :
    (∀ row ∈ heapLocations ptr rows, ptr ≤ row.heapLocation) ∧
      (heapLocations ptr rows).Pairwise SortKeyRow.HeapDisjoint := by
  induction rows generalizing ptr with
  | nil => exact ⟨nofun, .nil⟩
  | cons row rows ih =>
    obtain ⟨hle, hdisj⟩ := ih (ptr + t.heapSize row.2)
    constructor
    · intro row' hrow'
      rcases mem_cons.1 hrow' with rfl | hrow'
      · exact le_rfl
      · exact (Nat.le_add_right _ _).trans (hle row' hrow')
    · refine pairwise_cons.2 ⟨fun row' hrow' i hi => ?_, hdisj⟩
      exact absurd (hi.1.2.trans_le (hle row' hrow')) (not_lt.2 hi.2.1)

/-- The order of keys. -/
def KeyLess (m : Memory) (lhs rhs : SortKey t) : Prop := lhs.lessThan m rhs = some true

/-- A strict weak order on the elements of a list. -/
structure StrictWeakOrderOn {α : Type*} (lt : α → α → Prop) (l : List α) : Prop where
  irrefl : ∀ a ∈ l, ¬lt a a
  trans : ∀ a ∈ l, ∀ b ∈ l, ∀ c ∈ l, lt a b → lt b c → lt a c
  incomparable_trans : ∀ a ∈ l, ∀ b ∈ l, ∀ c ∈ l, (¬lt a b ∧ ¬lt b a) → (¬lt b c ∧ ¬lt c b) →
    (¬lt a c ∧ ¬lt c a)

theorem StrictWeakOrderOn.of_code {α β : Type*} [LinearOrder β] {lt : α → α → Prop} {l : List α}
    {R : α → β → Prop} (hcode : ∀ a ∈ l, ∃ x, R a x) (hlt : ∀ a x b y, R a x → R b y → (lt a b ↔ x < y)) :
    StrictWeakOrderOn lt l where
  irrefl a ha := by
    obtain ⟨x, hx⟩ := hcode a ha
    exact fun h => lt_irrefl x ((hlt a x a x hx hx).1 h)
  trans a ha b hb c hc := by
    obtain ⟨x, hx⟩ := hcode a ha
    obtain ⟨y, hy⟩ := hcode b hb
    obtain ⟨z, hz⟩ := hcode c hc
    rw [hlt a x b y hx hy, hlt b y c z hy hz, hlt a x c z hx hz]
    exact lt_trans
  incomparable_trans a ha b hb c hc := by
    obtain ⟨x, hx⟩ := hcode a ha
    obtain ⟨y, hy⟩ := hcode b hb
    obtain ⟨z, hz⟩ := hcode c hc
    rw [hlt a x b y hx hy, hlt b y a x hy hx, hlt b y c z hy hz, hlt c z b y hz hy, hlt a x c z hx hz,
      hlt c z a x hz hx, not_lt, not_lt, not_lt, not_lt, not_lt, not_lt]
    exact fun h h' => ⟨h'.1.trans h.1, h.2.trans h'.2⟩

/-- Keys of blobs of which none is a proper prefix of another are ordered as the blobs, which are read from them. -/
theorem sortKeyScatter_agrees (rows : List (SortKeyRow t)) (m : Memory)
    (hheap : rows.Pairwise SortKeyRow.HeapDisjoint)
    (hfits : t.constantSize = true → ∀ row ∈ rows, row.val.size ≤ t.inlineLength)
    (hfree : ∀ row ∈ rows, ∀ row' ∈ rows, PrefixFree row.val.bytes row'.val.bytes) :
    (sortKeyScatter rows m).1.length = rows.length ∧
      (∀ p ∈ rows.zip (sortKeyScatter rows m).1, ∀ q ∈ rows.zip (sortKeyScatter rows m).1,
        p.2.lessThan (sortKeyScatter rows m).2 q.2 = some (decide (p.1.val.bytes < q.1.val.bytes))) ∧
      StrictWeakOrderOn (KeyLess (sortKeyScatter rows m).2) (sortKeyScatter rows m).1 ∧
      ∀ p ∈ rows.zip (sortKeyScatter rows m).1, p.1.val.bytes <+: (p.2.deconstruct (sortKeyScatter rows m).2).1 ∧
          (p.2.deconstruct (sortKeyScatter rows m).2).2.reconstruct = p.2 := by
  have hbt := sortKeyScatter_spec m hheap hfits
  have hlen := length_sortKeyScatter rows m
  refine ⟨hlen, fun p hp q hq => ?_, ?_, fun p hp => ?_⟩
  · rw [SortKey.lessThan_spec (hbt p hp) (hbt q hq)]
    refine congrArg some (decide_eq_decide.2 (SortKey.code_lt_code_iff t ?_))
    exact hfree _ (of_mem_zip hp).1 _ (of_mem_zip hq).1
  · refine .of_code (R := fun key code => ∃ val, key.BuiltFrom (sortKeyScatter rows m).2 val ∧
      SortKey.code t val = code) (fun key hkey => ?_) ?_
    · obtain ⟨i, hi, rfl⟩ := mem_iff_getElem.1 hkey
      have hzip : i < (rows.zip (sortKeyScatter rows m).1).length := by
        rw [length_zip, hlen, min_self]
        exact hi.trans_eq hlen
      have h := hbt _ (getElem_mem hzip)
      rw [getElem_zip] at h
      exact ⟨_, _, h, rfl⟩
    · rintro lhs _ rhs _ ⟨val, h, rfl⟩ ⟨val', h', rfl⟩
      rw [KeyLess, SortKey.lessThan_spec h h', Option.some.injEq, decide_eq_true_iff]
  · exact ⟨SortKey.deconstruct_spec (hbt p hp), p.2.reconstruct_deconstruct _⟩

/-- Keys with one word, of a blob that fits and two on the heap that only differ behind the word. -/
def threeKeys : List (SortKeyRow .payloadVariable32) := heapLocations 64
    [(⟨[0], 7, 7, 7, rfl⟩, ⟨[1, 2, 0, 0, 0, 0, 0, 0, 4, 5], by decide⟩),
      (⟨[0], 7, 7, 7, rfl⟩, ⟨[1, 2, 3], by decide⟩),
      (⟨[0], 7, 7, 7, rfl⟩, ⟨[1, 2, 0, 0, 0, 0, 0, 0, 4, 6, 1], by decide⟩)]

theorem sortKeyScatter_agrees_threeKeys : (sortKeyScatter threeKeys fun _ => 0).1.length = 3 ∧
    ∀ p ∈ threeKeys.zip (sortKeyScatter threeKeys fun _ => 0).1,
      ∀ q ∈ threeKeys.zip (sortKeyScatter threeKeys fun _ => 0).1,
        p.2.lessThan (sortKeyScatter threeKeys fun _ => 0).2 q.2 = some (decide (p.1.val.bytes < q.1.val.bytes)) :=
  (sortKeyScatter_agrees threeKeys (fun _ => 0) (heapLocations_disjoint 64 _).2
    (fun h => Bool.noConfusion h) (by decide)).imp_right And.left

end Scatter

end WfOpt

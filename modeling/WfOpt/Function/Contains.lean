import WfOpt.Lib.Wildcard

/-!
# Search in strings

`FindStrInStr` looks for the first byte of the needle and compares what follows there: as one integer, and byte by
byte where the needle is longer than an integer. It finds the first occurrence of the needle
(`findStrInStr_eq`), whichever of these comparisons the length of the needle selects.
-/

namespace WfOpt

open List

open Wildcard (firstOccurrence)

/-- `memchr`, in the first `n` bytes -/
def memchr (s : List UInt8) (c : UInt8) (n : ℕ) : Option ℕ := (s.take n).findIdx? (· = c)

/-- The `OP`s of `Contains`. -/
inductive ContainsOp
  | containsAligned
  | containsUnaligned
  | containsGeneric

/-- `MatchRemainder`, for integers of `width` bytes -/
def ContainsOp.matchRemainder (width : ℕ) (haystack needle : List UInt8) : ContainsOp → Bool
  | .containsAligned => true
  | .containsUnaligned =>
    let matching := (range' width (needle.length - width)).countP fun i => haystack[i]? = needle[i]?
    matching = needle.length - width
  | .containsGeneric => (haystack.drop width).take (needle.length - width) = needle.drop width

/-- The loop of `Contains`. Integers are compared as the bytes they are loaded from. -/
def containsLoop (width : ℕ) (op : ContainsOp) (haystack : List UInt8) (haystackSize : ℕ) (needle : List UInt8)
    (offset : ℕ) : Option ℕ :=
  if offset < haystackSize then
    match memchr (haystack.drop offset) (needle.headD 0) (haystackSize - offset) with
    | none => none
    | some i =>
      let location := haystack.drop (offset + i)
      if needle.take width = location.take width ∧ op.matchRemainder width location needle then some (offset + i)
      else containsLoop width op haystack haystackSize needle (offset + i + 1)
  else none
termination_by haystackSize - offset
decreasing_by omega

/-- `Contains` -/
def contains (width : ℕ) (op : ContainsOp) (haystack needle : List UInt8) : Option ℕ :=
  if haystack.length < needle.length then none
  else containsLoop width op haystack (haystack.length - (needle.length - 1)) needle 0

/-- `FindStrInStr` -/
def findStrInStr (haystack needle : List UInt8) : Option ℕ := match needle with
  | [] => some 0
  | c :: _ =>
    match memchr haystack c haystack.length with
    | none => none
    | some baseOffset =>
      let haystack := haystack.drop baseOffset
      match needle.length with
      | 1 => some baseOffset
      | 2 => (contains 2 .containsAligned haystack needle).map (baseOffset + ·)
      | 3 => (contains 2 .containsUnaligned haystack needle).map (baseOffset + ·)
      | 4 => (contains 4 .containsAligned haystack needle).map (baseOffset + ·)
      | 5 | 6 | 7 => (contains 4 .containsUnaligned haystack needle).map (baseOffset + ·)
      | 8 => (contains 8 .containsAligned haystack needle).map (baseOffset + ·)
      | _ => (contains 8 .containsGeneric haystack needle).map (baseOffset + ·)

/-! ## The first occurrence -/

section Memchr

variable {s needle : List UInt8} {c : UInt8} {n i : ℕ}

theorem memchr_eq_none_iff : memchr s c n = none ↔ ∀ i < n, s[i]? ≠ some c := by
  rw [memchr, findIdx?_eq_none_iff]
  constructor
  · intro h i hi heq
    have hmem : c ∈ s.take n := mem_take_iff_getElem.2 <| by
      obtain ⟨hlt, heq⟩ := List.getElem?_eq_some_iff.1 heq
      exact ⟨i, lt_min hi hlt, heq⟩
    exact of_decide_eq_false (h c hmem) rfl
  · intro h x hx
    obtain ⟨i, hi, rfl⟩ := mem_take_iff_getElem.1 hx
    refine decide_eq_false fun heq => h i (lt_min_iff.1 hi).1 ?_
    rw [← heq]
    exact List.getElem?_eq_getElem _

theorem memchr_eq_some (h : memchr s c n = some i) : i < n ∧ s[i]? = some c ∧ ∀ j < i, s[j]? ≠ some c := by
  rw [memchr, findIdx?_eq_some_iff_getElem] at h
  obtain ⟨hi, hfnd, hno⟩ := h
  rw [getElem_take, decide_eq_true_iff] at hfnd
  refine ⟨(lt_min_iff.1 (length_take ▸ hi)).1, List.getElem?_eq_some_iff.2 ⟨_, hfnd⟩, fun j hj heq =>
    hno j hj ?_⟩
  obtain ⟨hlt, heq⟩ := List.getElem?_eq_some_iff.1 heq
  rw [getElem_take, heq]
  exact decide_eq_true rfl

theorem cons_prefix_drop (h : s[i]? = some c) : [c] <+: s.drop i := by
  obtain ⟨hlt, rfl⟩ := List.getElem?_eq_some_iff.1 h
  rw [drop_eq_getElem_cons hlt]
  exact cons_prefix_cons.2 ⟨rfl, nil_prefix⟩

/-- Where the first byte of the needle is not found, the needle is not. -/
theorem not_prefix_of_getElem? (h : s[i]? ≠ some c) : ¬c :: needle <+: s.drop i := by
  rintro ⟨t, heq⟩
  refine h ?_
  rw [← Nat.add_zero i, ← getElem?_drop, ← heq]
  rfl

end Memchr

/-- The comparisons of an `OP` suffice for needles of a length. -/
def ContainsOp.Suits (op : ContainsOp) (width length : ℕ) : Prop :=
  width ≤ length ∧ (op = .containsAligned → width = length)

variable {width : ℕ} {op : ContainsOp} {haystack needle : List UInt8}

section

variable (hsuits : op.Suits width needle.length)

include hsuits

/-- The integer and the remainder are compared to tell whether the needle is at a place. -/
theorem ContainsOp.matchRemainder_iff
    (hlen : needle.length ≤ haystack.length) :
    (needle.take width = haystack.take width ∧ op.matchRemainder width haystack needle = true) ↔
      needle <+: haystack := by
  have hspl : needle <+: haystack ↔ needle.take width = haystack.take width ∧
      needle.drop width = (haystack.drop width).take (needle.length - width) := by
    rw [prefix_iff_eq_take]
    obtain ⟨k, hk⟩ := Nat.exists_eq_add_of_le hsuits.1
    rw [hk, Nat.add_sub_cancel_left, take_add]
    constructor
    · intro h
      rw [h, take_left' (by rw [length_take]; omega), drop_left' (by rw [length_take]; omega)]
      exact ⟨rfl, rfl⟩
    · rintro ⟨htake, hdrop⟩
      rw [← htake, ← hdrop, take_append_drop]
  rw [hspl]
  refine and_congr_right' ?_
  cases op with
  | containsAligned =>
    have hwid := hsuits.2 rfl
    rw [matchRemainder, ← hwid, Nat.sub_self, take_zero, hwid, drop_length]
    exact iff_of_true rfl rfl
  | containsUnaligned =>
    have hcnt := countP_eq_length (p := fun i => haystack[i]? = needle[i]?)
      (l := range' width (needle.length - width))
    rw [length_range'] at hcnt
    rw [matchRemainder, decide_eq_true_iff, hcnt]
    constructor
    · intro h
      refine ext_getElem? fun i => ?_
      rw [getElem?_drop, getElem?_take]
      split_ifs with hi
      · rw [getElem?_drop]
        exact (of_decide_eq_true (h _ (mem_range'_1.2 ⟨Nat.le_add_right _ _, by omega⟩))).symm
      · exact getElem?_eq_none (by omega)
    · intro h i hi
      obtain ⟨hle, hlt⟩ := mem_range'_1.1 hi
      obtain ⟨k, rfl⟩ := Nat.exists_eq_add_of_le hle
      rw [decide_eq_true_iff, ← getElem?_drop, ← getElem?_drop, h, getElem?_take, if_pos (by omega)]
  | containsGeneric =>
    rw [matchRemainder, decide_eq_true_iff]
    exact eq_comm

theorem containsLoop_eq (hne : needle ≠ []) {offset : ℕ}
    (hlen : needle.length ≤ haystack.length) (hno : ∀ i < offset, ¬needle <+: haystack.drop i) :
    containsLoop width op haystack (haystack.length - (needle.length - 1)) needle offset =
      firstOccurrence needle haystack := by
  obtain ⟨c, rest, rfl⟩ := exists_cons_of_ne_nil hne
  have hend : ∀ i, haystack.length - ((c :: rest).length - 1) ≤ i → ¬c :: rest <+: haystack.drop i := by
    intro i hi hbeg
    have := hbeg.length_le
    rw [length_drop] at this
    rw [length_cons] at this hi hlen
    omega
  induction hk : haystack.length - ((c :: rest).length - 1) - offset using Nat.strong_induction_on generalizing offset with
  | _ k ih =>
  rw [containsLoop]
  by_cases hlt : offset < haystack.length - ((c :: rest).length - 1)
  · rw [if_pos hlt, headD_cons]
    cases hmem : memchr (haystack.drop offset) c (haystack.length - ((c :: rest).length - 1) - offset) with
    | none =>
      refine (Wildcard.firstOccurrence_eq_none hne fun i _ => ?_).symm
      rcases lt_or_ge i offset with hi | hi
      · exact hno i hi
      · rcases lt_or_ge i (haystack.length - ((c :: rest).length - 1)) with hi' | hi'
        · obtain ⟨j, rfl⟩ := Nat.exists_eq_add_of_le hi
          have := memchr_eq_none_iff.1 hmem j (by omega)
          rw [getElem?_drop] at this
          exact not_prefix_of_getElem? this
        · exact hend i hi'
    | some i =>
      obtain ⟨hi, -, hbef⟩ := memchr_eq_some hmem
      have hno' : ∀ j < offset + i, ¬c :: rest <+: haystack.drop j := by
        intro j hj
        rcases lt_or_ge j offset with hj' | hj'
        · exact hno j hj'
        · obtain ⟨j, rfl⟩ := Nat.exists_eq_add_of_le hj'
          have := hbef j (Nat.lt_of_add_lt_add_left hj)
          rw [getElem?_drop] at this
          exact not_prefix_of_getElem? this
      dsimp only
      have hiff : _ ↔ c :: rest <+: haystack.drop (offset + i) :=
        ContainsOp.matchRemainder_iff hsuits (by rw [length_drop]; omega)
      by_cases hbeg : c :: rest <+: haystack.drop (offset + i)
      · rw [if_pos (hiff.2 hbeg), Wildcard.firstOccurrence_drop (by omega) hno',
          Wildcard.firstOccurrence_of_prefix hbeg]
        rfl
      · rw [if_neg (mt hiff.1 hbeg)]
        refine ih _ ?_ (fun j hj => ?_) rfl
        · omega
        · rcases Nat.lt_succ_iff_lt_or_eq.1 hj with hj | rfl
          · exact hno' j hj
          · exact hbeg
  · rw [if_neg hlt]
    refine (Wildcard.firstOccurrence_eq_none hne fun i _ => ?_).symm
    rcases lt_or_ge i offset with hi | hi
    · exact hno i hi
    · exact hend i ((not_lt.1 hlt).trans hi)

theorem contains_eq (hne : needle ≠ []) :
    contains width op haystack needle = firstOccurrence needle haystack := by
  rw [contains]
  split_ifs with h
  · refine (Wildcard.firstOccurrence_eq_none hne fun i _ hbeg => ?_).symm
    have := hbeg.length_le
    rw [length_drop] at this
    omega
  · exact containsLoop_eq hsuits hne (not_lt.1 h) fun i hi => absurd hi i.not_lt_zero

end

theorem findStrInStr_eq (haystack needle : List UInt8) :
    findStrInStr haystack needle = firstOccurrence needle haystack := by
  cases needle with
  | nil => exact (Wildcard.firstOccurrence_of_prefix nil_prefix).symm
  | cons c rest =>
    rw [findStrInStr]
    cases hmem : memchr haystack c haystack.length with
    | none =>
      exact (Wildcard.firstOccurrence_eq_none (cons_ne_nil c rest) fun i hi =>
        not_prefix_of_getElem? (memchr_eq_none_iff.1 hmem i hi)).symm
    | some baseOffset =>
      obtain ⟨hlt, hfnd, hbef⟩ := memchr_eq_some hmem
      rw [Wildcard.firstOccurrence_drop hlt.le fun i hi => not_prefix_of_getElem? (hbef i hi)]
      dsimp only
      have halig : ∀ width, width = (c :: rest).length → contains width .containsAligned
          (haystack.drop baseOffset) (c :: rest) = firstOccurrence (c :: rest) (haystack.drop baseOffset) :=
        fun width h => contains_eq ⟨h.le, fun _ => h⟩ (cons_ne_nil c rest)
      have hunal : ∀ width op, op ≠ .containsAligned → width ≤ (c :: rest).length → contains width op
          (haystack.drop baseOffset) (c :: rest) = firstOccurrence (c :: rest) (haystack.drop baseOffset) :=
        fun width op hop h => contains_eq ⟨h, fun heq => absurd heq hop⟩ (cons_ne_nil c rest)
      split
      next hlen =>
        rw [length_cons, Nat.add_eq_right, length_eq_zero_iff] at hlen
        rw [hlen, Wildcard.firstOccurrence_of_prefix (cons_prefix_drop hfnd)]
        rfl
      -- The integers are as long as the needle if the remainder is not compared.
      next hlen => rw [halig 2 hlen.symm]
      next hlen => rw [hunal 2 .containsUnaligned (fun h => nomatch h) (by omega)]
      next hlen => rw [halig 4 hlen.symm]
      next hlen => rw [hunal 4 .containsUnaligned (fun h => nomatch h) (by omega)]
      next hlen => rw [hunal 4 .containsUnaligned (fun h => nomatch h) (by omega)]
      next hlen => rw [hunal 4 .containsUnaligned (fun h => nomatch h) (by omega)]
      next hlen => rw [halig 8 hlen.symm]
      next h₁ h₂ h₃ h₄ h₅ h₆ h₇ h₈ =>
        have hlong : ∀ n, n ≠ 0 → n ≠ 1 → n ≠ 2 → n ≠ 3 → n ≠ 4 → n ≠ 5 → n ≠ 6 → n ≠ 7 → n ≠ 8 → 8 ≤ n := by
          omega
        rw [hunal 8 .containsGeneric (fun h => nomatch h)
          (hlong _ (Nat.succ_ne_zero _) h₁ h₂ h₃ h₄ h₅ h₆ h₇ h₈)]

/-! ## Loaded bytes -/

/-- `count` bytes that are read, from `start` on. -/
inductive StringLoad
  | haystack (start count : ℕ)
  | needle (start count : ℕ)

/-- The bytes are in the haystack or the needle. -/
def StringLoad.Inside (haystackSize needleSize : ℕ) : StringLoad → Prop
  | .haystack start count => start + count ≤ haystackSize
  | .needle start count => start + count ≤ needleSize

/-- What `MatchRemainder` reads at a location. -/
def ContainsOp.loads (width location needleSize : ℕ) : ContainsOp → List StringLoad
  | .containsAligned => []
  | _ => [.haystack (location + width) (needleSize - width), .needle width (needleSize - width)]

/-- What the loop of `Contains` reads, in a haystack from `base` on. `memchr` may read all its bytes. -/
def containsLoads (width : ℕ) (op : ContainsOp) (base : ℕ) (haystack : List UInt8) (haystackSize : ℕ)
    (needle : List UInt8) (offset : ℕ) : List StringLoad :=
  if offset < haystackSize then
    .needle 0 1 :: .haystack (base + offset) (haystackSize - offset) ::
      match memchr (haystack.drop offset) (needle.headD 0) (haystackSize - offset) with
      | none => []
      | some i =>
        let location := haystack.drop (offset + i)
        .haystack (base + (offset + i)) width :: if needle.take width = location.take width then
            op.loads width (base + (offset + i)) needle.length ++ if op.matchRemainder width location needle then []
              else containsLoads width op base haystack haystackSize needle (offset + i + 1)
          else containsLoads width op base haystack haystackSize needle (offset + i + 1)
  else []
termination_by haystackSize - offset
decreasing_by all_goals omega

/-- The `UNSIGNED` and the `OP` for needles of a size. -/
def containsPath : ℕ → ℕ × ContainsOp
  | 2 => (2, .containsAligned)
  | 3 => (2, .containsUnaligned)
  | 4 => (4, .containsAligned)
  | 5 | 6 | 7 => (4, .containsUnaligned)
  | 8 => (8, .containsAligned)
  | _ => (8, .containsGeneric)

/-- What `FindStrInStr` reads. `Contains` loads the start of the needle once the haystack is not shorter. -/
def findStrInStrLoads (haystack needle : List UInt8) : List StringLoad :=
  .needle 0 1 :: .haystack 0 haystack.length :: match memchr haystack (needle.headD 0) haystack.length with
    | none => []
    | some base =>
      if needle.length = 1 ∨ haystack.length - base < needle.length then []
      else .needle 0 (containsPath needle.length).1 ::
        containsLoads (containsPath needle.length).1 (containsPath needle.length).2 base (haystack.drop base)
          (haystack.length - base - (needle.length - 1)) needle 0

theorem containsPath_suits : ∀ {n : ℕ}, 2 ≤ n → (containsPath n).2.Suits (containsPath n).1 n
  | 2, _ | 4, _ | 8, _ => ⟨by decide, fun _ => rfl⟩
  | 3, _ | 5, _ | 6, _ | 7, _ => ⟨by decide, fun h => nomatch h⟩
  | n + 9, _ => ⟨Nat.le_add_left 8 (n + 1), fun h => nomatch h⟩

/-- A location leaves room for the needle. -/
theorem containsLoads_inside {base size offset : ℕ} (hsuits : op.Suits width needle.length) (hne : needle ≠ [])
    (hsz : base + size + (needle.length - 1) ≤ haystack.length) {sub : List UInt8} :
    ∀ load ∈ containsLoads width op base sub size needle offset, load.Inside haystack.length needle.length := by
  have hpos := length_pos_iff.2 hne
  have hwid := hsuits.1
  induction hk : size - offset using Nat.strong_induction_on generalizing offset with
  | _ k ih =>
  rw [containsLoads]
  by_cases hlt : offset < size
  swap
  · rw [if_neg hlt]
    exact fun _ hload => nomatch hload
  rw [if_pos hlt]
  refine forall_mem_cons.2 ⟨?_, forall_mem_cons.2 ⟨?_, ?_⟩⟩
  · exact hpos
  · rw [StringLoad.Inside]
    omega
  cases hmem : memchr (sub.drop offset) (needle.headD 0) (size - offset) with
  | none => exact fun _ hload => nomatch hload
  | some i =>
    obtain ⟨hi, -, -⟩ := memchr_eq_some hmem
    have hrest := @ih (size - (offset + i + 1)) (by omega) (offset + i + 1) rfl
    have hrem : ∀ load ∈ op.loads width (base + (offset + i)) needle.length,
        load.Inside haystack.length needle.length := by
      cases op with
      | containsAligned => exact fun _ hload => nomatch hload
      | containsUnaligned | containsGeneric =>
        simp only [ContainsOp.loads, forall_mem_cons, StringLoad.Inside]
        exact ⟨by omega, by omega, fun _ hload => nomatch hload⟩
    refine forall_mem_cons.2 ⟨?_, ?_⟩
    · rw [StringLoad.Inside]
      omega
    split_ifs
    · rwa [append_nil]
    · exact forall_mem_append.2 ⟨hrem, hrest⟩
    · exact hrest

/-- The first occurrence of a needle is found, whatever its length, without a look outside the haystack and the
    needle. -/
theorem findStrInStr_spec (hne : needle ≠ []) : (∀ i, findStrInStr haystack needle = some i ↔
      needle <+: haystack.drop i ∧ ∀ j < i, ¬needle <+: haystack.drop j) ∧
    (findStrInStr haystack needle = none ↔ ¬needle <:+: haystack) ∧
    ∀ load ∈ findStrInStrLoads haystack needle, load.Inside haystack.length needle.length := by
  have hpos := length_pos_iff.2 hne
  rw [findStrInStr_eq]
  refine ⟨fun i => Wildcard.firstOccurrence_eq_some_iff hne, ?_, ?_⟩
  · rw [← Wildcard.firstOccurrence_isSome_iff, Option.not_isSome_iff_eq_none]
  refine forall_mem_cons.2 ⟨hpos, forall_mem_cons.2 ⟨(Nat.zero_add _).le, ?_⟩⟩
  cases hmem : memchr haystack (needle.headD 0) haystack.length with
  | none => exact fun _ hload => nomatch hload
  | some base =>
    dsimp only
    split_ifs with hsz
    · exact fun _ hload => nomatch hload
    · have hsuits := containsPath_suits (n := needle.length) (by omega)
      refine forall_mem_cons.2 ⟨?_, containsLoads_inside hsuits hne (by omega)⟩
      exact (Nat.zero_add _).trans_le hsuits.1

theorem findStrInStr_spec_three : findStrInStr [1, 2, 1, 2, 3] [1, 2, 3] = some 2 :=
  ((findStrInStr_spec (by decide)).1 2).2 (by decide)

end WfOpt

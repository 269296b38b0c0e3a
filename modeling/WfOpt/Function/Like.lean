import WfOpt.Lib.Utf8
import WfOpt.Lib.Wildcard

/-!
# LIKE

`TemplatedLikeOperator` matches the bytes of a string against those of a pattern, and starts again at each byte
behind a `%`. A `_` takes the bytes of a character. What it accepts are the lists of bytes that match the pattern
(`templatedLikeOperator_iff`), whatever the bytes are. If they are those of texts, then it does not matter that a
match may start within a character: the texts match character by character (`templatedLikeOperator_utf8_iff`).
-/

namespace WfOpt

open List

open Wildcard (Matches)

/-- The pattern with a wildcard for anything and one for one element. -/
def likeWildcards {α : Type*} [DecidableEq α] (percentage underscore : α) (pattern : List α) : List (Wildcard α) :=
  pattern.map fun p =>
    if p = percentage then .anything else if p = underscore then .one else .exactly p

/-- A string matches a pattern, character by character. -/
def LikeMatches (pattern string : List Char) : Prop := Matches tail (likeWildcards '%' '_' pattern) string

/-- `'%'` -/
def percentage : UInt8 := 0x25

/-- `'_'` -/
def underscore : UInt8 := 0x5F

/-- `IsCharacter` -/
def isCharacter (c : UInt8) : Bool := c &&& 0xC0 ≠ 0x80

/-- `StandardCharacterReader::NextCharacter` -/
def nextCharacter (sdata : List UInt8) : List UInt8 := (sdata.drop 1).dropWhile fun c => !isCharacter c

/-- The loop over what a `%` may take. -/
def likeAtSomeByte (like : List UInt8 → Bool) : List UInt8 → Bool
  | [] => false
  | schar :: sdata => like (schar :: sdata) || likeAtSomeByte like sdata

/-- `TemplatedLikeOperator<'%', '_', false>` -/
def templatedLikeOperator : (sdata pdata : List UInt8) → Bool
  | sdata, [] => sdata.isEmpty
  | [], pchar :: pdata => ((pchar :: pdata).dropWhile (· = percentage)).isEmpty
  | schar :: sdata, pchar :: pdata =>
    if pchar = underscore then templatedLikeOperator (nextCharacter (schar :: sdata)) pdata
    else if pchar = percentage then
      let rest := pdata.dropWhile (· = percentage)
      if rest = [] then true
      else likeAtSomeByte (fun sdata => templatedLikeOperator sdata rest) (schar :: sdata)
    else if pchar = schar then templatedLikeOperator sdata pdata
    else false
termination_by _ pdata => pdata.length
decreasing_by
  · exact Nat.lt_succ_self _
  · exact Nat.lt_succ_of_le (dropWhile_suffix _).length_le
  · exact Nat.lt_succ_self _

/-! ## Bytes -/

/-- The pattern of bytes. -/
def byteWildcards (pdata : List UInt8) : List (Wildcard UInt8) := likeWildcards percentage underscore pdata

@[simp] theorem byteWildcards_nil : byteWildcards [] = [] := rfl

theorem byteWildcards_percentage (pdata : List UInt8) :
    byteWildcards (percentage :: pdata) = .anything :: byteWildcards pdata := rfl

theorem byteWildcards_underscore (pdata : List UInt8) :
    byteWildcards (underscore :: pdata) = .one :: byteWildcards pdata := rfl

theorem byteWildcards_cons {pchar : UInt8} (hp : pchar ≠ percentage) (hu : pchar ≠ underscore) (pdata : List UInt8) :
    byteWildcards (pchar :: pdata) = .exactly pchar :: byteWildcards pdata := by
  rw [byteWildcards, likeWildcards, map_cons, if_neg hp, if_neg hu]
  rfl

/-- Bytes that are not special are matched by themselves. -/
theorem byteWildcards_append {l : List UInt8} (hl : ∀ b ∈ l, b ≠ percentage ∧ b ≠ underscore) (pdata : List UInt8) :
    byteWildcards (l ++ pdata) = Wildcard.segment l ++ byteWildcards pdata := by
  induction l with
  | nil => rfl
  | cons b l ih =>
    rw [forall_mem_cons] at hl
    rw [cons_append, byteWildcards_cons hl.1.1 hl.1.2, ih hl.2]
    rfl

variable {skip : List UInt8 → List UInt8} {sdata pdata : List UInt8}

theorem matches_byteWildcards_nil_iff :
    Matches skip (byteWildcards pdata) [] ↔ pdata.dropWhile (· = percentage) = [] := by
  induction pdata with
  | nil => exact iff_of_true .nil rfl
  | cons pchar pdata ih =>
    by_cases hp : pchar = percentage
    · rw [hp, byteWildcards_percentage, Wildcard.matches_anything_iff, ih]
      simp
    · rw [dropWhile_cons_of_neg (by simpa using hp)]
      refine iff_of_false (fun h => ?_) (cons_ne_nil _ _)
      by_cases hu : pchar = underscore
      · rw [hu, byteWildcards_underscore, Wildcard.matches_one_iff] at h
        exact h.1 rfl
      · rw [byteWildcards_cons hp hu, Wildcard.matches_exactly_iff] at h
        obtain ⟨t, heq, -⟩ := h
        exact nomatch heq

theorem matches_dropWhile_percentage (pdata : List UInt8) : Matches skip (.anything :: byteWildcards pdata) sdata ↔
      Matches skip (.anything :: byteWildcards (pdata.dropWhile (· = percentage))) sdata := by
  induction pdata with
  | nil => exact Iff.rfl
  | cons pchar pdata ih =>
    by_cases hp : pchar = percentage
    · rw [hp, byteWildcards_percentage, Wildcard.matches_anything_anything, ih, dropWhile_cons_of_pos (by simp)]
    · rw [dropWhile_cons_of_neg (by simpa using hp)]

theorem likeAtSomeByte_iff (like : List UInt8 → Bool) :
    likeAtSomeByte like sdata = true ↔ ∃ u t, sdata = u ++ t ∧ t ≠ [] ∧ like t = true := by
  induction sdata with
  | nil =>
    refine iff_of_false Bool.false_ne_true ?_
    rintro ⟨u, t, heq, hne, -⟩
    exact hne (append_eq_nil_iff.1 heq.symm).2
  | cons schar sdata ih =>
    rw [likeAtSomeByte, Bool.or_eq_true, ih]
    constructor
    · rintro (h | ⟨u, t, rfl, hne, h⟩)
      · exact ⟨[], schar :: sdata, rfl, cons_ne_nil _ _, h⟩
      · exact ⟨schar :: u, t, rfl, hne, h⟩
    · rintro ⟨u, t, heq, hne, h⟩
      cases u with
      | nil =>
        exact .inl (by rwa [heq])
      | cons y u =>
        rw [cons_append, cons.injEq] at heq
        exact .inr ⟨u, t, heq.2, hne, h⟩

theorem templatedLikeOperator_iff (sdata pdata : List UInt8) :
    templatedLikeOperator sdata pdata = true ↔ Matches nextCharacter (byteWildcards pdata) sdata := by
  induction sdata, pdata using templatedLikeOperator.induct with
  | case1 sdata =>
    rw [templatedLikeOperator, List.isEmpty_iff, byteWildcards_nil, Wildcard.matches_nil_iff]
  | case2 pchar pdata => rw [templatedLikeOperator, List.isEmpty_iff, matches_byteWildcards_nil_iff]
  | case3 schar sdata pdata ih =>
    rw [templatedLikeOperator, if_pos rfl, ih, byteWildcards_underscore, Wildcard.matches_one_iff]
    exact (and_iff_right (cons_ne_nil _ _)).symm
  | case4 schar sdata pdata rest hrst hu =>
    rw [templatedLikeOperator, if_neg hu, if_pos rfl, if_pos hrst, byteWildcards_percentage,
      matches_dropWhile_percentage, show pdata.dropWhile _ = [] from hrst]
    exact iff_of_true rfl (Wildcard.matches_anything _)
  | case5 schar sdata pdata rest hrst hu ih =>
    rw [templatedLikeOperator, if_neg hu, if_pos rfl, if_neg hrst, byteWildcards_percentage,
      matches_dropWhile_percentage, likeAtSomeByte_iff, Wildcard.matches_anything_iff_exists]
    refine exists_congr fun u => exists_congr fun t => and_congr_right' ?_
    -- Behind the `%`s the pattern needs a byte.
    rw [ih t]
    refine and_iff_right_of_imp fun h => ?_
    rintro rfl
    rw [matches_byteWildcards_nil_iff, dropWhile_idempotent] at h
    exact hrst h
  | case6 sdata pchar pdata hu hp ih =>
    rw [templatedLikeOperator, if_neg hu, if_neg hp, if_pos rfl, ih, byteWildcards_cons hp hu,
      Wildcard.matches_exactly_iff]
    simp
  | case7 schar sdata pchar pdata hu hp hne =>
    rw [templatedLikeOperator, if_neg hu, if_neg hp, if_neg hne, byteWildcards_cons hp hu,
      Wildcard.matches_exactly_iff]
    refine iff_of_false Bool.false_ne_true ?_
    rintro ⟨t, heq, -⟩
    exact hne (cons.inj heq).1.symm

/-! ## Texts -/

theorem nextCharacter_append {m : List UInt8} (hm : ∀ x ∈ m, isContinuationByte x = true) (b : UInt8) (l : List Char) :
    nextCharacter (b :: m ++ utf8Encode l) = utf8Encode l := by
  have hfun : (fun c => !isCharacter c) = isContinuationByte := by
    funext c
    simp [isCharacter, isContinuationByte]
  rw [nextCharacter, hfun, cons_append, drop_one, tail_cons, dropWhile_isContinuationByte hm]

theorem utf8EncodeChar_percentage : String.utf8EncodeChar '%' = [percentage] := by decide

theorem utf8EncodeChar_underscore : String.utf8EncodeChar '_' = [underscore] := by decide

/-- The bytes of the special characters are only theirs. -/
theorem ne_special_of_mem {c : Char} (hp : c ≠ '%') (hu : c ≠ '_') :
    ∀ b ∈ String.utf8EncodeChar c, b ≠ percentage ∧ b ≠ underscore := by
  have hne : ∀ d, ∀ b ∈ String.utf8EncodeChar c, b.toNat < 0x80 → c ≠ d → String.utf8EncodeChar d ≠ [b] := by
    intro d b hb hlt hne heq
    have happ : String.utf8EncodeChar c ++ [] = String.utf8EncodeChar d ++ [] := by
      rw [utf8EncodeChar_eq_of_mem hb hlt, heq]
    exact hne (utf8EncodeChar_append_inj happ).1
  intro b hb
  constructor
  · rintro rfl
    exact hne '%' _ hb (by decide) hp utf8EncodeChar_percentage
  · rintro rfl
    exact hne '_' _ hb (by decide) hu utf8EncodeChar_underscore

/-- Anything may be taken of the bytes, if what then matches from within a character shows that texts match. -/
theorem matches_anything_utf8_iff {bytes : List (Wildcard UInt8)} {characters : List (Wildcard Char)}
    (h : ∀ string, Matches nextCharacter bytes (utf8Encode string) ↔ Matches tail characters string)
    (hwith : ∀ m string c, m ≠ [] → (∀ x ∈ m, isContinuationByte x = true) →
      Matches nextCharacter bytes (m ++ utf8Encode string) → Matches tail characters (c :: string))
    (string : List Char) :
    Matches nextCharacter (.anything :: bytes) (utf8Encode string) ↔
      Matches tail (.anything :: characters) string := by
  rw [Wildcard.matches_anything_iff_exists, Wildcard.matches_anything_iff_exists]
  constructor
  · rintro ⟨u, t, heq, ht⟩
    obtain ⟨l₁, l₂, m, rfl, rfl, hm, hne⟩ := exists_of_utf8Encode_eq_append heq
    by_cases hnil : m = []
    · rw [hnil, nil_append, h] at ht
      exact ⟨l₁, l₂, rfl, ht⟩
    · obtain ⟨l₁, c, rfl⟩ := (eq_nil_or_concat' l₁).resolve_left (hne hnil)
      exact ⟨l₁, c :: l₂, append_assoc l₁ [c] l₂, hwith m l₂ c hnil hm ht⟩
  · rintro ⟨l₁, l₂, rfl, hmatches⟩
    exact ⟨utf8Encode l₁, utf8Encode l₂, utf8Encode_append l₁ l₂, (h l₂).2 hmatches⟩

/-- A text matches a pattern if its bytes do. Behind a `%` they may match from within a character, but a `_` takes the
    rest of it as well as all of it. -/
theorem matches_utf8_iff (pattern : List Char) :
    (∀ string, Matches nextCharacter (byteWildcards (utf8Encode pattern)) (utf8Encode string) ↔
        LikeMatches pattern string) ∧
      ∀ string, Matches nextCharacter (.anything :: byteWildcards (utf8Encode pattern)) (utf8Encode string) ↔
        Matches tail (.anything :: likeWildcards '%' '_' pattern) string := by
  induction pattern with
  | nil =>
    refine ⟨fun string => ?_, fun string => iff_of_true (Wildcard.matches_anything _) (Wildcard.matches_anything _)⟩
    rw [utf8Encode_nil, byteWildcards_nil, Wildcard.matches_nil_iff]
    exact utf8Encode_injective.eq_iff' rfl |>.trans Wildcard.matches_nil_iff.symm
  | cons c pattern ih =>
    obtain ⟨ih, ihAnything⟩ := ih
    by_cases hp : c = '%'
    · subst hp
      refine ⟨ihAnything, fun string => ?_⟩
      rw [utf8Encode_cons, utf8EncodeChar_percentage, singleton_append, byteWildcards_percentage,
        Wildcard.matches_anything_anything, ihAnything string]
      exact Wildcard.matches_anything_anything.symm
    · by_cases hu : c = '_'
      · subst hu
        have hone : ∀ string, Matches nextCharacter (byteWildcards (utf8Encode ('_' :: pattern))) (utf8Encode string) ↔
            LikeMatches ('_' :: pattern) string := by
          intro string
          rw [utf8Encode_cons, utf8EncodeChar_underscore, singleton_append, byteWildcards_underscore]
          change _ ↔ Matches tail (.one :: likeWildcards '%' '_' pattern) string
          rw [Wildcard.matches_one_iff, Wildcard.matches_one_iff]
          cases string with
          | nil => simp
          | cons d string =>
            obtain ⟨b, bs, heq, -, hbs⟩ := exists_utf8EncodeChar_eq_cons d
            rw [utf8Encode_cons, heq, nextCharacter_append hbs, ih string]
            exact and_congr (iff_of_true (cons_ne_nil _ _) (cons_ne_nil _ _)) Iff.rfl
        refine ⟨hone, matches_anything_utf8_iff hone fun m string c hne hm h => ?_⟩
        rw [utf8Encode_cons, utf8EncodeChar_underscore, singleton_append, byteWildcards_underscore,
          Wildcard.matches_one_iff] at h
        obtain ⟨b, m, rfl⟩ := exists_cons_of_ne_nil hne
        rw [nextCharacter_append (forall_mem_cons.1 hm).2, ih string] at h
        exact .one h.2
      · have hexactly : ∀ l, Matches nextCharacter (byteWildcards (utf8Encode (c :: pattern))) l ↔
            ∃ t, l = String.utf8EncodeChar c ++ t ∧ Matches nextCharacter (byteWildcards (utf8Encode pattern)) t := by
          intro l
          rw [utf8Encode_cons, byteWildcards_append (ne_special_of_mem hp hu), Wildcard.matches_segment_append]
        have hiff : ∀ string, Matches nextCharacter (byteWildcards (utf8Encode (c :: pattern))) (utf8Encode string) ↔
            LikeMatches (c :: pattern) string := by
          intro string
          rw [hexactly, LikeMatches, likeWildcards, map_cons, if_neg hp, if_neg hu, Wildcard.matches_exactly_iff]
          constructor
          · rintro ⟨t, heq, ht⟩
            cases string with
            | nil => exact absurd (append_eq_nil_iff.1 heq.symm).1 (utf8EncodeChar_ne_nil c)
            | cons d string =>
              obtain ⟨rfl, rfl⟩ := utf8EncodeChar_append_inj heq
              exact ⟨string, rfl, (ih string).1 ht⟩
          · rintro ⟨string, rfl, h⟩
            exact ⟨utf8Encode string, rfl, (ih string).2 h⟩
        refine ⟨hiff, matches_anything_utf8_iff hiff fun m string d hne hm h => ?_⟩
        obtain ⟨t, heq, -⟩ := (hexactly _).1 h
        obtain ⟨b, bs, hcons, hb, -⟩ := exists_utf8EncodeChar_eq_cons c
        obtain ⟨x, m, rfl⟩ := exists_cons_of_ne_nil hne
        rw [hcons, cons_append, cons_append, cons.injEq] at heq
        rw [← heq.1, (forall_mem_cons.1 hm).1] at hb
        exact nomatch hb

/-- On texts, the operator decides whether they match. -/
theorem templatedLikeOperator_utf8_iff (string pattern : List Char) :
    templatedLikeOperator (utf8Encode string) (utf8Encode pattern) = true ↔ LikeMatches pattern string := by
  rw [templatedLikeOperator_iff, (matches_utf8_iff pattern).1]

end WfOpt

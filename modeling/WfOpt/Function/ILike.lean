import WfOpt.Function.Like

/-!
# ILIKE

`ILikeOperatorFunction` matches the lower case of a string against that of the pattern, with the byte zero as escape
character. For strings of ASCII bytes, `ILikePropagateStats` puts `ILikeOperatorASCII` in its place, which knows no
escape character. Both agree on all such strings if and only if the pattern has a character whose lower case is not
ASCII, or only ASCII characters other than NUL (`iLike_agree_iff`).
-/

namespace WfOpt.ILike

set_option maxRecDepth 10000

open List

/-- `ASCII_TO_LOWER_MAP` -/
def asciiToLower (b : UInt8) : UInt8 := if 0x41 ≤ b ∧ b ≤ 0x5A then b + 0x20 else b

/-- `StandardCharacterReader` and `ASCIILCaseReader` -/
structure CharacterReader where
  nextCharacter : List UInt8 → List UInt8
  operation : UInt8 → UInt8

def standardCharacterReader : CharacterReader := ⟨nextCharacter, id⟩

def asciiLCaseReader : CharacterReader := ⟨tail, asciiToLower⟩

/-- The loop over what a `%` may take, which a thrown exception leaves. -/
def likeAtSomeTail (like : List UInt8 → Option Bool) : List UInt8 → Option Bool
  | [] => some false
  | schar :: sdata =>
    match like (schar :: sdata) with
    | some false => likeAtSomeTail like sdata
    | result => result

/-- `TemplatedLikeOperator<'%', '_', HAS_ESCAPE, READER>`: `none` is the exception for a pattern that ends in an
    escape character. -/
def likeOperator (reader : CharacterReader) (escape : Option UInt8) : (sdata pdata : List UInt8) → Option Bool
  | sdata, [] => some sdata.isEmpty
  | [], pchar :: pdata => some ((pchar :: pdata).dropWhile (· = percentage)).isEmpty
  | schar :: sdata, pchar :: pdata =>
    if escape = some (reader.operation pchar) then
      match pdata with
      | [] => none
      | next :: pdata => if next ≠ reader.operation schar then some false else likeOperator reader escape sdata pdata
    else if reader.operation pchar = underscore then
      likeOperator reader escape (reader.nextCharacter (schar :: sdata)) pdata
    else if reader.operation pchar = percentage then
      if pdata.dropWhile (· = percentage) = [] then some true
      else likeAtSomeTail (fun sdata => likeOperator reader escape sdata (pdata.dropWhile (· = percentage)))
        (schar :: sdata)
    else if reader.operation pchar = reader.operation schar then likeOperator reader escape sdata pdata
    else some false
termination_by _ pdata => pdata.length
decreasing_by
  · exact Nat.lt_succ_of_lt (Nat.lt_succ_self _)
  · exact Nat.lt_succ_self _
  · exact Nat.lt_succ_of_le (dropWhile_suffix _).length_le
  · exact Nat.lt_succ_self _

/-- The code point is a byte below 0x80. -/
def IsAscii (c : Char) : Prop := c.val < 0x80

instance (c : Char) : Decidable (IsAscii c) := inferInstanceAs (Decidable (_ < _))

variable (codepointToLower : Char → Char) {sdata pdata : List UInt8} {b : UInt8}

/-- `LowerCase`, where `Utf8Proc::CodepointToLower` is used beyond ASCII. -/
def lowerCase (text : List Char) : List UInt8 := text.flatMap fun c =>
    if IsAscii c then (String.utf8EncodeChar c).map asciiToLower else String.utf8EncodeChar (codepointToLower c)

/-- `ILikeOperatorFunction` -/
def iLikeOperatorFunction (str pattern : List Char) : Option Bool :=
  likeOperator standardCharacterReader (some 0) (lowerCase codepointToLower str) (lowerCase codepointToLower pattern)

/-- `ILikeOperatorASCII` -/
def iLikeOperatorASCII (str pattern : List Char) : Option Bool :=
  likeOperator asciiLCaseReader none (utf8Encode str) (utf8Encode pattern)

/-! ## Bytes beyond ASCII -/

/-- Bytes stay below or above 0x80, and what is read next is part of the string. -/
structure CharacterReader.Keeps (reader : CharacterReader) : Prop where
  operation (b : UInt8) : reader.operation b < 0x80 ↔ b < 0x80
  next (sdata : List UInt8) : reader.nextCharacter sdata ⊆ sdata

theorem asciiToLower_lt (b : UInt8) : asciiToLower b < 0x80 ↔ b < 0x80 := by
  revert b
  decide

theorem asciiLCaseReader_keeps : asciiLCaseReader.Keeps := ⟨asciiToLower_lt, fun _ => tail_subset _⟩

theorem standardCharacterReader_keeps : standardCharacterReader.Keeps :=
  ⟨fun _ => Iff.rfl, fun sdata => List.Subset.trans (dropWhile_suffix _).subset (drop_subset 1 sdata)⟩

theorem likeAtSomeTail_eq_false {like : List UInt8 → Option Bool} {sdata : List UInt8}
    (h : ∀ t, t <:+ sdata → like t = some false) : likeAtSomeTail like sdata = some false := by
  induction sdata with
  | nil => rfl
  | cons schar sdata ih =>
    rw [likeAtSomeTail, h _ (suffix_refl _)]
    exact ih fun t ht => h t (ht.trans (suffix_cons schar sdata))

variable {reader : CharacterReader} {escape : Option UInt8}

theorem likeOperator_cons {schar pchar : UInt8}
    (h : ¬escape = some (reader.operation pchar)) : likeOperator reader escape (schar :: sdata) (pchar :: pdata) =
      if reader.operation pchar = underscore then
        likeOperator reader escape (reader.nextCharacter (schar :: sdata)) pdata
      else if reader.operation pchar = percentage then
        if pdata.dropWhile (· = percentage) = [] then some true
        else likeAtSomeTail (fun sdata => likeOperator reader escape sdata (pdata.dropWhile (· = percentage)))
          (schar :: sdata)
      else if reader.operation pchar = reader.operation schar then likeOperator reader escape sdata pdata
      else some false := by
  cases pdata <;> conv_lhs => rw [likeOperator, if_neg h]

/-- A byte beyond ASCII has to be matched, which no byte of the string does. -/
theorem likeOperator_eq_false (hreader : reader.Keeps) (hescape : ∀ e, escape = some e → e < 0x80)
    (hs : ∀ b ∈ sdata, b < 0x80) (hp : ∃ b ∈ pdata, ¬b < 0x80) :
    likeOperator reader escape sdata pdata = some false := by
  have hdrop : ∀ pdata : List UInt8, (∃ b ∈ pdata, ¬b < 0x80) → ∃ b ∈ pdata.dropWhile (· = percentage), ¬b < 0x80 := by
    rintro pdata ⟨b, hb, hhigh⟩
    rw [← takeWhile_append_dropWhile (p := (· = percentage)) (l := pdata), mem_append] at hb
    refine ⟨b, hb.resolve_left fun hb => hhigh ?_, hhigh⟩
    have hpct := mem_takeWhile_imp hb
    rw [decide_eq_true_iff] at hpct
    rw [hpct]
    decide
  have hrst : ∀ {pchar : UInt8} {pdata : List UInt8}, (∃ b ∈ pchar :: pdata, ¬b < 0x80) →
      reader.operation pchar < 0x80 → ∃ b ∈ pdata, ¬b < 0x80 := by
    intro pchar pdata hp hlt
    exact ((exists_mem_cons_iff _ _ _).1 hp).resolve_left (not_not_intro ((hreader.operation pchar).1 hlt))
  induction sdata, pdata using likeOperator.induct reader escape with
  | case1 sdata =>
    obtain ⟨b, hb, -⟩ := hp
    exact absurd hb not_mem_nil
  | case2 pchar pdata =>
    obtain ⟨b, hb, -⟩ := hdrop _ hp
    rw [likeOperator]
    simpa using ne_nil_of_mem hb
  | case3 schar sdata pchar heq =>
    obtain ⟨b, hb, -⟩ := hrst hp (hescape _ heq)
    exact absurd hb not_mem_nil
  | case4 schar sdata pchar heq next pdata hne =>
    rw [likeOperator, if_pos heq]
    exact if_pos hne
  | case5 schar sdata pchar heq next pdata hnx ih =>
    rw [likeOperator, if_pos heq]
    rw [not_not] at hnx
    refine (if_neg (not_not_intro hnx)).trans (ih (forall_mem_cons.1 hs).2 ?_)
    refine ((exists_mem_cons_iff _ _ _).1 (hrst hp (hescape _ heq))).resolve_left (not_not_intro ?_)
    rw [hnx, hreader.operation]
    exact (forall_mem_cons.1 hs).1
  | case6 schar sdata pchar pdata heq hu ih =>
    rw [likeOperator_cons heq, if_pos hu]
    exact ih (fun b hb => hs b (hreader.next _ hb)) (hrst hp (hu ▸ by decide))
  | case7 schar sdata pchar pdata heq hu hpct hnil =>
    obtain ⟨b, hb, -⟩ := hdrop _ (hrst hp (hpct ▸ by decide))
    rw [hnil] at hb
    exact absurd hb not_mem_nil
  | case8 schar sdata pchar pdata heq hu hpct hnil ih =>
    rw [likeOperator_cons heq, if_neg hu, if_pos hpct, if_neg hnil]
    exact likeAtSomeTail_eq_false fun t ht =>
      ih t (fun b hb => hs b (ht.subset hb)) (hdrop _ (hrst hp (hpct ▸ by decide)))
  | case9 schar sdata pchar pdata heq hu hpct hchar ih =>
    rw [likeOperator_cons heq, if_neg hu, if_neg hpct, if_pos hchar]
    refine ih (forall_mem_cons.1 hs).2 (hrst hp ?_)
    rw [hchar, hreader.operation]
    exact (forall_mem_cons.1 hs).1
  | case10 schar sdata pchar pdata heq hu hpct hne =>
    rw [likeOperator_cons heq, if_neg hu, if_neg hpct, if_neg hne]

/-! ## Bytes of ASCII -/

theorem asciiToLower_eq_iff : ∀ b, (asciiToLower b = percentage ↔ b = percentage) ∧
    (asciiToLower b = underscore ↔ b = underscore) ∧ (asciiToLower b = 0 ↔ b = 0) := by
  decide

theorem dropWhile_map_asciiToLower (pdata : List UInt8) :
    (pdata.map asciiToLower).dropWhile (· = percentage) = (pdata.dropWhile (· = percentage)).map asciiToLower := by
  rw [dropWhile_map]
  congr 1
  refine congrArg₂ _ ?_ rfl
  funext b
  simp [(asciiToLower_eq_iff b).1]

/-- `_` takes one byte. -/
theorem nextCharacter_ascii {sdata : List UInt8} (hs : ∀ b ∈ sdata, b < 0x80) : nextCharacter sdata = sdata.tail := by
  have hcharacter : ∀ b : UInt8, b < 0x80 → isCharacter b = true := by decide
  rw [nextCharacter, drop_one]
  cases htail : sdata.tail with
  | nil => rfl
  | cons b l =>
    have hb := hcharacter b (hs b (mem_of_mem_tail (htail ▸ mem_cons_self)))
    rw [dropWhile_cons_of_neg (by simp [hb])]

theorem likeAtSomeTail_map {like like' : List UInt8 → Option Bool} {sdata : List UInt8}
    (h : ∀ t, t <:+ sdata → like (t.map asciiToLower) = like' t) :
    likeAtSomeTail like (sdata.map asciiToLower) = likeAtSomeTail like' sdata := by
  induction sdata with
  | nil => rfl
  | cons schar sdata ih =>
    have hhead := h _ (suffix_refl _)
    rw [map_cons] at hhead
    rw [map_cons, likeAtSomeTail, likeAtSomeTail, hhead, ih fun t ht => h t (ht.trans (suffix_cons schar sdata))]

/-- Bytes other than zero do not escape. -/
theorem likeOperator_map_cons {schar pchar : UInt8} (h : pchar ≠ 0) :
    likeOperator standardCharacterReader (some 0) ((schar :: sdata).map asciiToLower)
    ((pchar :: pdata).map asciiToLower) =
      if asciiLCaseReader.operation pchar = underscore then
        likeOperator standardCharacterReader (some 0) (nextCharacter ((schar :: sdata).map asciiToLower))
          (pdata.map asciiToLower)
      else if asciiLCaseReader.operation pchar = percentage then
        if (pdata.map asciiToLower).dropWhile (· = percentage) = [] then some true
        else likeAtSomeTail (fun sdata => likeOperator standardCharacterReader (some 0) sdata
          ((pdata.map asciiToLower).dropWhile (· = percentage))) ((schar :: sdata).map asciiToLower)
      else if asciiLCaseReader.operation pchar = asciiLCaseReader.operation schar then
        likeOperator standardCharacterReader (some 0) (sdata.map asciiToLower) (pdata.map asciiToLower)
      else some false :=
  likeOperator_cons fun heq => h ((asciiToLower_eq_iff pchar).2.2.1 (Option.some.inj heq).symm)

theorem likeOperator_map (hs : ∀ b ∈ sdata, b < 0x80) (hp : ∀ b ∈ pdata, b ≠ 0) :
    likeOperator standardCharacterReader (some 0) (sdata.map asciiToLower) (pdata.map asciiToLower) =
      likeOperator asciiLCaseReader none sdata pdata := by
  induction sdata, pdata using likeOperator.induct asciiLCaseReader none with
  | case1 sdata => rw [map_nil, likeOperator, likeOperator, isEmpty_map]
  | case2 pchar pdata =>
    rw [map_nil, map_cons, likeOperator, likeOperator, ← map_cons, dropWhile_map_asciiToLower, isEmpty_map]
  | case3 schar sdata pchar heq => exact nomatch heq
  | case4 schar sdata pchar heq => exact nomatch heq
  | case5 schar sdata pchar heq => exact nomatch heq
  | case6 schar sdata pchar pdata heq hu ih =>
    rw [likeOperator_map_cons (forall_mem_cons.1 hp).1, likeOperator_cons heq, if_pos hu, if_pos hu,
      ← ih (forall_mem_cons.1 hs).2 (forall_mem_cons.1 hp).2]
    refine congrArg₂ _ ?_ rfl
    exact nextCharacter_ascii (by simpa [asciiToLower_lt] using hs)
  | case7 schar sdata pchar pdata heq hu hpct hnil =>
    rw [likeOperator_map_cons (forall_mem_cons.1 hp).1, likeOperator_cons heq, if_neg hu, if_neg hu,
      if_pos hpct, if_pos hpct, dropWhile_map_asciiToLower, hnil]
    rfl
  | case8 schar sdata pchar pdata heq hu hpct hnil ih =>
    rw [likeOperator_map_cons (forall_mem_cons.1 hp).1, likeOperator_cons heq, if_neg hu, if_neg hu,
      if_pos hpct, if_pos hpct, dropWhile_map_asciiToLower, if_neg hnil, if_neg (mt map_eq_nil_iff.1 hnil)]
    exact likeAtSomeTail_map fun t ht => ih t (fun b hb => hs b (ht.subset hb))
      fun b hb => hp b (mem_cons_of_mem _ ((dropWhile_suffix _).subset hb))
  | case9 schar sdata pchar pdata heq hu hpct hchar ih =>
    rw [likeOperator_map_cons (forall_mem_cons.1 hp).1, likeOperator_cons heq, if_neg hu, if_neg hu,
      if_neg hpct, if_neg hpct, if_pos hchar, if_pos hchar]
    exact ih (forall_mem_cons.1 hs).2 (forall_mem_cons.1 hp).2
  | case10 schar sdata pchar pdata heq hu hpct hne =>
    rw [likeOperator_map_cons (forall_mem_cons.1 hp).1, likeOperator_cons heq, if_neg hu, if_neg hu,
      if_neg hpct, if_neg hpct, if_neg hne, if_neg hne]

/-! ## A string that escapes -/

/-- The pattern without its escape characters: it reaches the end of the pattern, or the exception. -/
def strip : List UInt8 → List UInt8
  | [] => []
  | b :: pdata =>
    if b = 0 then
      match pdata with
      | [] => [1]
      | c :: pdata => c :: strip pdata
    else b :: strip pdata

theorem strip_cons (h : b ≠ 0) (pdata : List UInt8) : strip (b :: pdata) = b :: strip pdata := by
  rw [strip.eq_def]
  exact if_neg h

theorem strip_zero_cons (c : UInt8) (pdata : List UInt8) : strip (0 :: c :: pdata) = c :: strip pdata := rfl

theorem mem_strip {pdata : List UInt8} (h : b ∈ strip pdata) : b = 1 ∨ b ∈ pdata := by
  induction pdata using strip.induct with
  | case1 => exact absurd h not_mem_nil
  | case2 => exact Or.inl (mem_singleton.1 h)
  | case3 c pdata ih =>
    rw [strip_zero_cons, mem_cons] at h
    rw [mem_cons, mem_cons]
    tauto
  | case4 c pdata hc ih =>
    rw [strip_cons hc, mem_cons] at h
    rw [mem_cons]
    tauto

theorem strip_dropWhile_suffix (pdata : List UInt8) : strip (pdata.dropWhile (· = percentage)) <:+ strip pdata := by
  induction pdata with
  | nil => exact suffix_refl _
  | cons b pdata ih =>
    by_cases hb : b = percentage
    · rw [hb, strip_cons (by decide)]
      exact ih.trans (suffix_cons _ _)
    · rw [dropWhile_cons_of_neg (by simpa using hb)]

theorem strip_ne_nil {pdata : List UInt8} (h : pdata ≠ []) : strip pdata ≠ [] := by
  induction pdata using strip.induct with
  | case1 => exact absurd rfl h
  | case2 | case3 c pdata ih => exact cons_ne_nil _ _
  | case4 c pdata hc ih =>
    rw [strip_cons hc]
    exact cons_ne_nil _ _

/-- Each escape character is a NUL less. -/
theorem count_strip (pdata : List UInt8) : (strip pdata).count 0 + (if 0 ∈ pdata then 1 else 0) ≤ pdata.count 0 := by
  induction pdata using strip.induct with
  | case1 => decide
  | case2 => decide
  | case3 c pdata ih =>
    rw [strip_zero_cons, if_pos mem_cons_self, count_cons, count_cons_self, count_cons]
    omega
  | case4 b pdata hb ih =>
    have hmem : (0 ∈ b :: pdata) ↔ 0 ∈ pdata := by simp [Ne.symm hb]
    rw [strip_cons hb, count_cons_of_ne hb, count_cons_of_ne hb]
    simpa only [hmem] using ih

theorem likeAtSomeTail_ne_false {like : List UInt8 → Option Bool} {sdata t : List UInt8} (ht : t <:+ sdata) (hne : t ≠ [])
    (h : like t ≠ some false) : likeAtSomeTail like sdata ≠ some false := by
  induction sdata with
  | nil => exact absurd (suffix_nil.1 ht) hne
  | cons schar sdata ih =>
    rw [likeAtSomeTail]
    rcases suffix_cons_iff.1 ht with rfl | ht
    · split
      · exact absurd ‹_› h
      · exact h
    · split
      · exact ih ht
      · assumption

theorem likeOperator_strip {pdata : List UInt8} (hp : ∀ b ∈ pdata, b < 0x80) :
    likeOperator standardCharacterReader (some 0) (strip pdata) pdata ≠ some false := by
  induction hn : pdata.length using Nat.strong_induction_on generalizing pdata with
  | _ n ih =>
    subst hn
    match pdata with
    | [] =>
      rw [likeOperator]
      exact (by decide : some true ≠ some false)
    | b :: pdata =>
      have hrst : ∀ c ∈ pdata, c < 0x80 := (forall_mem_cons.1 hp).2
      by_cases hb : b = 0
      · subst hb
        have hescape : (some 0 : Option UInt8) = some (standardCharacterReader.operation 0) := rfl
        cases pdata with
        | nil =>
          rw [strip, if_pos rfl, likeOperator, if_pos hescape]
          exact (Option.some_ne_none _).symm
        | cons c pdata =>
          rw [strip_zero_cons, likeOperator, if_pos hescape,
            if_neg (not_not_intro (show c = standardCharacterReader.operation c from rfl))]
          exact ih _ (Nat.lt_succ_of_lt (Nat.lt_succ_self _)) (forall_mem_cons.1 hrst).2 rfl
      · have hstrip : ∀ c ∈ strip pdata, c < 0x80 := by
          intro c hc
          rcases mem_strip hc with rfl | hc
          · decide
          · exact hrst c hc
        rw [strip_cons hb, likeOperator_cons fun h => hb (Option.some.inj h).symm]
        split_ifs with hu hpct hnil
        · change likeOperator _ _ (nextCharacter (b :: strip pdata)) pdata ≠ _
          rw [nextCharacter_ascii (forall_mem_cons.2 ⟨(forall_mem_cons.1 hp).1, hstrip⟩)]
          exact ih _ (Nat.lt_succ_self _) hrst rfl
        · exact (by decide : some true ≠ some false)
        · refine likeAtSomeTail_ne_false ((strip_dropWhile_suffix pdata).trans (suffix_cons _ _)) (strip_ne_nil hnil) ?_
          exact ih _ (Nat.lt_succ_of_le (dropWhile_suffix _).length_le)
            (fun c hc => hrst c ((dropWhile_suffix _).subset hc)) rfl
        · exact ih _ (Nat.lt_succ_self _) hrst rfl
        · contradiction

theorem count_dropWhile_percentage (pdata : List UInt8) :
    (pdata.dropWhile (· = percentage)).count 0 = pdata.count 0 := by
  induction pdata with
  | nil => rfl
  | cons b pdata ih =>
    by_cases hb : b = percentage
    · rw [hb, dropWhile_cons_of_pos (by simp), count_cons_of_ne (by decide), ih]
    · rw [dropWhile_cons_of_neg (by simpa using hb)]

theorem ne_zero_of_operation {b c : UInt8} (h : asciiLCaseReader.operation b = c) (hc : c ≠ 0) : b ≠ 0 := by
  rintro rfl
  exact hc h.symm

/-- Each NUL of the pattern takes one of the string. -/
theorem count_le_of_likeOperator
    (h : likeOperator asciiLCaseReader none sdata pdata ≠ some false) : pdata.count 0 ≤ sdata.count 0 := by
  induction sdata, pdata using likeOperator.induct asciiLCaseReader none with
  | case1 sdata => exact Nat.zero_le _
  | case2 pchar pdata =>
    rw [likeOperator, Ne, Option.some.injEq, Bool.not_eq_false, List.isEmpty_iff] at h
    rw [← count_dropWhile_percentage, h]
  | case3 schar sdata pchar heq => exact nomatch heq
  | case4 schar sdata pchar heq => exact nomatch heq
  | case5 schar sdata pchar heq => exact nomatch heq
  | case6 schar sdata pchar pdata heq hu ih =>
    rw [likeOperator_cons heq, if_pos hu] at h
    rw [count_cons_of_ne (ne_zero_of_operation hu (by decide))]
    exact (ih h).trans ((tail_sublist (schar :: sdata)).count_le 0)
  | case7 schar sdata pchar pdata heq hu hpct hnil =>
    rw [count_cons_of_ne (ne_zero_of_operation hpct (by decide)), ← count_dropWhile_percentage, hnil]
    exact Nat.zero_le _
  | case8 schar sdata pchar pdata heq hu hpct hnil ih =>
    rw [likeOperator_cons heq, if_neg hu, if_pos hpct, if_neg hnil] at h
    obtain ⟨t, ht, hlike⟩ : ∃ t, t <:+ schar :: sdata ∧ likeOperator asciiLCaseReader none t
        (pdata.dropWhile (· = percentage)) ≠ some false := by
      by_contra hno
      push Not at hno
      exact h (likeAtSomeTail_eq_false hno)
    rw [count_cons_of_ne (ne_zero_of_operation hpct (by decide)), ← count_dropWhile_percentage]
    exact (ih t hlike).trans (ht.sublist.count_le 0)
  | case9 schar sdata pchar pdata heq hu hpct hchar ih =>
    rw [likeOperator_cons heq, if_neg hu, if_neg hpct, if_pos hchar] at h
    have hz : pchar = 0 ↔ schar = 0 := by
      rw [← (asciiToLower_eq_iff pchar).2.2, ← (asciiToLower_eq_iff schar).2.2,
        show asciiToLower pchar = asciiToLower schar from hchar]
    have := ih h
    rw [count_cons, count_cons]
    simp only [beq_iff_eq, hz]
    omega
  | case10 schar sdata pchar pdata heq hu hpct hne =>
    rw [likeOperator_cons heq, if_neg hu, if_neg hpct, if_neg hne] at h
    exact absurd rfl h

theorem count_map_asciiToLower (l : List UInt8) : (l.map asciiToLower).count 0 = l.count 0 := by
  rw [count_eq_countP, count_eq_countP, countP_map]
  refine countP_congr fun b _ => ?_
  simp [(asciiToLower_eq_iff b).2.2]

/-! ## Texts -/

theorem utf8EncodeChar_of_isAscii {c : Char} (h : IsAscii c) : String.utf8EncodeChar c = [c.val.toUInt8] := by
  have hle : c.val.toNat ≤ 127 := Nat.le_of_lt_succ (UInt32.lt_iff_toNat_lt.1 h)
  unfold String.utf8EncodeChar
  rw [if_pos hle]
  rfl

theorem toUInt8_lt {c : Char} (h : IsAscii c) : c.val.toUInt8 < 0x80 := by
  have hlt : c.val.toNat < 128 := UInt32.lt_iff_toNat_lt.1 h
  exact Nat.lt_of_le_of_lt (Nat.mod_le _ _) hlt

theorem toUInt8_eq_zero_iff {c : Char} (h : IsAscii c) : c.val.toUInt8 = 0 ↔ c = '\x00' := by
  have hlt : c.val.toNat < 128 := UInt32.lt_iff_toNat_lt.1 h
  rw [← UInt8.toNat_inj, UInt32.toNat_toUInt8, Char.ext_iff, ← UInt32.toNat_inj]
  change c.val.toNat % 256 = 0 ↔ c.val.toNat = 0
  omega

/-- All bytes of a character beyond ASCII are beyond ASCII. -/
theorem not_lt_of_mem {c : Char} (h : ¬IsAscii c) (hb : b ∈ String.utf8EncodeChar c) : ¬b < 0x80 := by
  intro hlt
  have hchar : ∀ b : UInt8, b < 0x80 → ∃ d : Char, IsAscii d ∧ String.utf8EncodeChar d = [b] := by
    intro b hb
    have hasc : ∀ b : UInt8, b < 0x80 → IsAscii (Char.ofNat b.toNat) ∧
        String.utf8EncodeChar (Char.ofNat b.toNat) = [b] := by decide
    exact ⟨_, hasc b hb⟩
  obtain ⟨d, hd, heq⟩ := hchar b hlt
  have happ : String.utf8EncodeChar c ++ [] = String.utf8EncodeChar d ++ [] := by
    rw [utf8EncodeChar_eq_of_mem hb (UInt8.lt_iff_toNat_lt.1 hlt), heq]
  exact h ((utf8EncodeChar_append_inj happ).1 ▸ hd)

theorem utf8Encode_lt {text : List Char} (h : ∀ c ∈ text, IsAscii c) : ∀ b ∈ utf8Encode text, b < 0x80 := by
  intro b hb
  obtain ⟨c, hc, hb⟩ := mem_flatMap.1 hb
  rw [utf8EncodeChar_of_isAscii (h c hc), mem_singleton] at hb
  rw [hb]
  exact toUInt8_lt (h c hc)

variable {codepointToLower}

theorem lowerCase_of_isAscii {text : List Char} (h : ∀ c ∈ text, IsAscii c) :
    lowerCase codepointToLower text = (utf8Encode text).map asciiToLower := by
  rw [lowerCase, utf8Encode, map_flatMap]
  exact flatMap_congr fun c hc => if_pos (h c hc)

theorem exists_text {l : List UInt8} (h : ∀ b ∈ l, b < 0x80) : ∃ text, (∀ c ∈ text, IsAscii c) ∧ utf8Encode text = l := by
  have hasc : ∀ b : UInt8, b < 0x80 → IsAscii (Char.ofNat b.toNat) ∧
      String.utf8EncodeChar (Char.ofNat b.toNat) = [b] := by decide
  refine ⟨l.map fun b => Char.ofNat b.toNat, ?_, ?_⟩
  · intro c hc
    obtain ⟨b, hb, rfl⟩ := mem_map.1 hc
    exact (hasc b (h b hb)).1
  · rw [utf8Encode, flatMap_map]
    exact (flatMap_congr fun b hb => (hasc b (h b hb)).2).trans (by simp)

theorem mem_lowerCase {text : List Char} : b ∈ lowerCase codepointToLower text ↔
    ∃ c ∈ text, (IsAscii c ∧ b = asciiToLower c.val.toUInt8) ∨
      ¬IsAscii c ∧ b ∈ String.utf8EncodeChar (codepointToLower c) := by
  rw [lowerCase, mem_flatMap]
  refine exists_congr fun c => and_congr_right fun _ => ?_
  by_cases hc : IsAscii c
  · rw [if_pos hc, utf8EncodeChar_of_isAscii hc, map_singleton, mem_singleton]
    tauto
  · rw [if_neg hc]
    tauto

/-- The lower case is no capital letter of ASCII. -/
def MapsToLower (codepointToLower : Char → Char) : Prop :=
  ∀ c, ¬IsAscii c → IsAscii (codepointToLower c) → asciiToLower (codepointToLower c).val.toUInt8 = (codepointToLower c).val.toUInt8

/-- Both agree on a pattern that matches nothing, or has only ASCII characters other than NUL. For others, the pattern
    without escape characters shows the difference. -/
theorem iLike_agree_iff (hlower : MapsToLower codepointToLower) (pattern : List Char) :
    (∀ str, (∀ c ∈ str, IsAscii c) →
        iLikeOperatorASCII str pattern = iLikeOperatorFunction codepointToLower str pattern) ↔
      (∃ c ∈ pattern, ¬IsAscii c ∧ ¬IsAscii (codepointToLower c)) ∨ ∀ c ∈ pattern, IsAscii c ∧ c ≠ '\x00' := by
  have hz : ∀ e : UInt8, (some 0 : Option UInt8) = some e → e < 0x80 := by
    intro e he
    rw [← Option.some.inj he]
    decide
  have hbeyond : ∀ str : List Char, (∀ c ∈ str, IsAscii c) → (∃ c ∈ pattern, ¬IsAscii c) →
      iLikeOperatorASCII str pattern = some false := by
    rintro str hstr ⟨c, hc, hasc⟩
    obtain ⟨b, bs, hcons, -⟩ := exists_utf8EncodeChar_eq_cons c
    have hb : b ∈ String.utf8EncodeChar c := hcons ▸ mem_cons_self
    exact likeOperator_eq_false asciiLCaseReader_keeps (fun e he => by simp at he) (utf8Encode_lt hstr)
      ⟨b, mem_flatMap.2 ⟨c, hc, hb⟩, not_lt_of_mem hasc hb⟩
  have hlowerStr : ∀ str : List Char, (∀ c ∈ str, IsAscii c) →
      lowerCase codepointToLower str = (utf8Encode str).map asciiToLower := fun str => lowerCase_of_isAscii
  constructor
  · intro hagr
    by_contra hnot
    rw [not_or] at hnot
    obtain ⟨hno, hsome⟩ := hnot
    -- The lower case of the pattern is ASCII, and has no capital letters.
    have hq : ∀ b ∈ lowerCase codepointToLower pattern, b < 0x80 ∧ asciiToLower b = b := by
      have hidem : ∀ b, asciiToLower (asciiToLower b) = asciiToLower b := by decide
      intro b hb
      obtain ⟨c, hc, ⟨hasc, rfl⟩ | ⟨hasc, hmem⟩⟩ := mem_lowerCase.1 hb
      · exact ⟨(asciiToLower_lt _).2 (toUInt8_lt hasc), hidem _⟩
      · have hlow : IsAscii (codepointToLower c) := by
          by_contra h
          exact hno ⟨c, hc, hasc, h⟩
        rw [utf8EncodeChar_of_isAscii hlow, mem_singleton] at hmem
        rw [hmem]
        exact ⟨toUInt8_lt hlow, hlower c hasc hlow⟩
    have hstrip : ∀ b ∈ strip (lowerCase codepointToLower pattern), b < 0x80 ∧ asciiToLower b = b := by
      intro b hb
      rcases mem_strip hb with rfl | hb
      · decide
      · exact hq b hb
    obtain ⟨str, hstr, hbs⟩ := exists_text fun b hb => (hstrip b hb).1
    have hfixed : (utf8Encode str).map asciiToLower = strip (lowerCase codepointToLower pattern) := by
      rw [hbs]
      exact (map_congr_left fun b hb => (hstrip b hb).2).trans (map_id' _)
    have hne : iLikeOperatorFunction codepointToLower str pattern ≠ some false := by
      rw [iLikeOperatorFunction, hlowerStr str hstr, hfixed]
      exact likeOperator_strip fun b hb => (hq b hb).1
    by_cases hasc : ∃ c ∈ pattern, ¬IsAscii c
    · exact hne ((hagr str hstr).symm.trans (hbeyond str hstr hasc))
    · -- A NUL of the pattern is not one of the string.
      have hall : ∀ c ∈ pattern, IsAscii c := by
        intro c hc
        by_contra h
        exact hasc ⟨c, hc, h⟩
      have hcnt := count_le_of_likeOperator fun h => hne ((hagr str hstr).symm.trans h)
      obtain ⟨c, hc, hnul⟩ : ∃ c ∈ pattern, c = '\x00' := by
        by_contra h
        exact hsome fun c hc => ⟨hall c hc, fun hnul => h ⟨c, hc, hnul⟩⟩
      have hmem : (0 : UInt8) ∈ lowerCase codepointToLower pattern :=
        mem_lowerCase.2 ⟨c, hc, Or.inl ⟨hall c hc, by rw [hnul]; rfl⟩⟩
      have hless := count_strip (lowerCase codepointToLower pattern)
      rw [if_pos hmem, ← hbs, hlowerStr pattern hall, count_map_asciiToLower] at hless
      omega
  · rintro (⟨c, hc, hasc, hlow⟩ | hall) str hstr
    · rw [hbeyond str hstr ⟨c, hc, hasc⟩, iLikeOperatorFunction]
      obtain ⟨b, bs, hcons, -⟩ := exists_utf8EncodeChar_eq_cons (codepointToLower c)
      have hb : b ∈ String.utf8EncodeChar (codepointToLower c) := hcons ▸ mem_cons_self
      refine (likeOperator_eq_false standardCharacterReader_keeps hz ?_
        ⟨b, mem_lowerCase.2 ⟨c, hc, Or.inr ⟨hasc, hb⟩⟩, not_lt_of_mem hlow hb⟩).symm
      rw [hlowerStr str hstr]
      simpa [asciiToLower_lt] using utf8Encode_lt hstr
    · rw [iLikeOperatorFunction, hlowerStr str hstr, hlowerStr pattern fun c hc => (hall c hc).1]
      refine (likeOperator_map (utf8Encode_lt hstr) fun b hb => ?_).symm
      obtain ⟨c, hc, hb⟩ := mem_flatMap.1 hb
      rw [utf8EncodeChar_of_isAscii (hall c hc).1, mem_singleton] at hb
      rw [hb, Ne, toUInt8_eq_zero_iff (hall c hc).1]
      exact (hall c hc).2

/-- The kelvin sign, whose lower case is an ASCII letter -/
theorem iLike_kelvin : ¬∀ str, (∀ c ∈ str, IsAscii c) → iLikeOperatorASCII str ['\u212A'] =
    iLikeOperatorFunction (fun c => if c = '\u212A' then 'k' else c) str ['\u212A'] := by
  have hlower : MapsToLower fun c => if c = '\u212A' then 'k' else c := by
    intro c hc hlow
    dsimp only at hlow ⊢
    split_ifs at hlow ⊢
    · decide
    · exact absurd hlow hc
  rw [iLike_agree_iff hlower]
  simp [IsAscii]

/-- A NUL is matched by itself, or it escapes the end of the pattern. -/
theorem iLike_nul : iLikeOperatorASCII ['\x00'] ['\x00'] = some true ∧
    iLikeOperatorFunction Char.toLower ['\x00'] ['\x00'] = none := by
  constructor
  · simp [iLikeOperatorASCII, utf8Encode, String.utf8EncodeChar, likeOperator, asciiLCaseReader, asciiToLower,
      percentage, underscore]
  · simp [iLikeOperatorFunction, lowerCase, IsAscii, String.utf8EncodeChar, likeOperator, standardCharacterReader,
      asciiToLower]

end WfOpt.ILike

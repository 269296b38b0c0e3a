import WfOpt.Function.LikeMatcher

/-!
# The rewriting of LIKE

`LikeOptimizationRule` rewrites a LIKE whose pattern has its `%`s at one end or both ends, and no `_`, into the
comparison of the string with what is left of the pattern: as a whole, at the beginning, at the end or anywhere
(`apply_evaluate`). With the generic operator and the matcher of constant patterns, there are three ways to match a
text, and all of them match it character by character (`like_implementations_agree`).
-/

namespace WfOpt

open List

open Wildcard (Matches)

/-- The functions that replace LIKE. `prefix` and `suffix` compare bytes. -/
inductive LikeFunction
  | prefixFun
  | suffixFun
  | stringContains
  deriving DecidableEq

def LikeFunction.holds (string pattern : List UInt8) : LikeFunction → Bool
  | .prefixFun => pattern <+: string
  | .suffixFun => pattern <:+ string
  | .stringContains => (findStrInStr string pattern).isSome

/-- What LIKE and NOT LIKE with a constant pattern are rewritten to. -/
inductive RewrittenLike
  | constantNull
  | comparison (isNotLike : Bool) (pattern : List UInt8)
  | function (f : LikeFunction) (pattern : List UInt8) (isNotLike : Bool)
  deriving DecidableEq

/-- The value for a string. -/
def RewrittenLike.evaluate : RewrittenLike → Option (List UInt8) → Option Bool
  | .constantNull, _ => none
  | .comparison isNotLike pattern, string =>
    string.map fun string => if isNotLike then string ≠ pattern else string = pattern
  | .function f pattern isNotLike, string =>
    string.map fun string => if isNotLike then !f.holds string pattern else f.holds string pattern

namespace LikeOptimizationRule

/-- A byte that is neither `%` nor `_` -/
def isOrdinary (b : UInt8) : Bool := !(b = percentage || b = underscore)

/-- `PatternIsConstant` -/
def patternIsConstant (pattern : List UInt8) : Bool := pattern.all isOrdinary

/-- `PatternIsPrefix` -/
def patternIsPrefix (pattern : List UInt8) : Bool := let i := (pattern.rdropWhile (· = percentage)).length
  if i = pattern.length then false else (pattern.take i).all isOrdinary

/-- `PatternIsSuffix` -/
def patternIsSuffix (pattern : List UInt8) : Bool := let i := (pattern.takeWhile (· = percentage)).length
  if i = 0 then false else (pattern.drop i).all isOrdinary

/-- `PatternIsContains` -/
def patternIsContains (pattern : List UInt8) : Bool := let start := (pattern.takeWhile (· = percentage)).length
  let stop := (pattern.rdropWhile (· = percentage)).length
  if start = 0 ∨ stop = pattern.length then false else ((pattern.take stop).drop start).all isOrdinary

/-- `ApplyRule` -/
def applyRule (f : LikeFunction) (pattern : List UInt8) (isNotLike : Bool) : RewrittenLike :=
  .function f (pattern.filter (· ≠ percentage)) isNotLike

/-- `LikeOptimizationRule::Apply`, with no result where the expression is kept -/
def apply (isNotLike : Bool) : Option (List UInt8) → Option RewrittenLike
  | none => some .constantNull
  | some pattern =>
    if patternIsConstant pattern then some (.comparison isNotLike pattern)
    else if patternIsPrefix pattern then some (applyRule .prefixFun pattern isNotLike)
    else if patternIsSuffix pattern then some (applyRule .suffixFun pattern isNotLike)
    else if patternIsContains pattern then some (applyRule .stringContains pattern isNotLike)
    else none

/-! ## Shapes of patterns -/

theorem isOrdinary_iff {b : UInt8} : isOrdinary b = true ↔ b ≠ percentage ∧ b ≠ underscore := by
  simp [isOrdinary]

variable {skip : List UInt8 → List UInt8} {pattern string first last l : List UInt8}

/-- Leading `%`s are as good as one. -/
theorem matches_percentages_append (hfst : ∀ b ∈ first, b = percentage) (hne : first ≠ []) :
    Matches skip (byteWildcards (first ++ pattern)) string ↔
      Matches skip (.anything :: byteWildcards pattern) string := by
  obtain ⟨b, first, rfl⟩ := exists_cons_of_ne_nil hne
  rw [forall_mem_cons] at hfst
  rw [hfst.1, cons_append, byteWildcards_percentage, matches_dropWhile_percentage,
    dropWhile_append_of_pos fun b hb => decide_eq_true (hfst.2 b hb), ← matches_dropWhile_percentage]

theorem matches_percentages (hlst : ∀ b ∈ last, b = percentage) (hne : last ≠ []) :
    Matches skip (byteWildcards last) string := by
  have h : Matches skip (byteWildcards (last ++ [])) string ↔ _ := matches_percentages_append hlst hne
  rw [append_nil] at h
  exact h.2 (Wildcard.matches_anything string)

theorem filter_ne_percentage_of_ordinary (hl : ∀ b ∈ l, isOrdinary b = true) : l.filter (· ≠ percentage) = l :=
  filter_eq_self.2 fun b hb => decide_eq_true (isOrdinary_iff.1 (hl b hb)).1

theorem filter_ne_percentage_of_percentages (hlst : ∀ b ∈ last, b = percentage) :
    last.filter (· ≠ percentage) = [] :=
  filter_eq_nil_iff.2 fun b hb => by simp [hlst b hb]

theorem eq_percentage_of_mem_takeWhile {b : UInt8} (hb : b ∈ pattern.takeWhile (· = percentage)) : b = percentage := by
  simpa using mem_takeWhile_imp hb

theorem eq_percentage_of_mem_rtakeWhile {b : UInt8} (hb : b ∈ pattern.rtakeWhile (· = percentage)) :
    b = percentage := by
  simpa using mem_rtakeWhile_imp hb

theorem exists_percentages_append (pattern : List UInt8) :
    ∃ last, pattern = pattern.take (pattern.rdropWhile (· = percentage)).length ++ last ∧
      (∀ b ∈ last, b = percentage) ∧
      ((pattern.rdropWhile (· = percentage)).length ≠ pattern.length → last ≠ []) := by
  have htake := prefix_iff_eq_take.1 <| rdropWhile_prefix (· = percentage) (l := pattern)
  have happ : pattern.rdropWhile (· = percentage) ++ pattern.rtakeWhile (· = percentage) = pattern :=
    rdropWhile_append_rtakeWhile
  refine ⟨pattern.rtakeWhile (· = percentage), by rw [← htake, happ], fun b hb => ?_, fun hne hnil => hne ?_⟩
  · exact eq_percentage_of_mem_rtakeWhile hb
  · rw [hnil, append_nil] at happ
    rw [happ]

theorem exists_of_patternIsPrefix (h : patternIsPrefix pattern = true) :
    ∃ l last, pattern = l ++ last ∧ (∀ b ∈ l, isOrdinary b = true) ∧ (∀ b ∈ last, b = percentage) ∧ last ≠ [] := by
  rw [patternIsPrefix] at h
  split_ifs at h with hlen
  obtain ⟨last, heq, hlst, hne⟩ := exists_percentages_append pattern
  exact ⟨_, last, heq, all_eq_true.1 h, hlst, hne hlen⟩

theorem exists_of_patternIsSuffix (h : patternIsSuffix pattern = true) :
    ∃ first l, pattern = first ++ l ∧ (∀ b ∈ first, b = percentage) ∧ first ≠ [] ∧ ∀ b ∈ l, isOrdinary b = true := by
  rw [patternIsSuffix] at h
  split_ifs at h with hlen
  have htake := prefix_iff_eq_take.1 <| takeWhile_prefix (l := pattern) (· = percentage)
  refine ⟨pattern.takeWhile (· = percentage), pattern.drop _, ?_, fun b hb =>
    eq_percentage_of_mem_takeWhile hb, fun hnil => hlen ?_, all_eq_true.1 h⟩
  · nth_rewrite 1 [htake]
    exact (take_append_drop _ _).symm
  · rw [hnil]
    rfl

theorem exists_of_patternIsContains (h : patternIsContains pattern = true) :
    ∃ first l last, pattern = first ++ (l ++ last) ∧ (∀ b ∈ first, b = percentage) ∧
      (∀ b ∈ l, isOrdinary b = true) ∧ (∀ b ∈ last, b = percentage) ∧ last ≠ [] ∧ (first = [] → l = []) := by
  rw [patternIsContains] at h
  split_ifs at h with hlen
  rw [not_or] at hlen
  obtain ⟨last, heq, hlst, hne⟩ := exists_percentages_append pattern
  have htake := prefix_iff_eq_take.1 <| takeWhile_prefix (l := pattern) (· = percentage)
  refine ⟨(pattern.take (pattern.rdropWhile (· = percentage)).length).take
    (pattern.takeWhile (· = percentage)).length, _, last, ?_, fun b hb => ?_, all_eq_true.1 h, hlst, hne hlen.2, fun hnil => ?_⟩
  · rw [← append_assoc, take_append_drop]
    exact heq
  · rw [take_take, min_comm, ← take_take, ← htake] at hb
    exact eq_percentage_of_mem_takeWhile (mem_of_mem_take hb)
  · rw [take_eq_nil_iff] at hnil
    rw [hnil.resolve_left hlen.1, drop_nil]

/-- The rewritten expression has the same value. -/
theorem apply_evaluate {isNotLike : Bool} {rewritten : RewrittenLike}
    (h : apply isNotLike (some pattern) = some rewritten) (string : List UInt8) :
    rewritten.evaluate (some string) =
      some (if isNotLike then !templatedLikeOperator string pattern else templatedLikeOperator string pattern) := by
  have hval : ∀ b : Bool, (b = true ↔ Matches nextCharacter (byteWildcards pattern) string) →
      b = templatedLikeOperator string pattern := by
    intro b hb
    rw [Bool.eq_iff_iff, hb, templatedLikeOperator_iff]
  have hrule : ∀ f : LikeFunction, (f.holds string (pattern.filter (· ≠ percentage)) = true ↔
        Matches nextCharacter (byteWildcards pattern) string) →
      (applyRule f pattern isNotLike).evaluate (some string) =
        some (if isNotLike then !templatedLikeOperator string pattern else templatedLikeOperator string pattern) := by
    intro f hf
    rw [applyRule, RewrittenLike.evaluate, Option.map_some, hval _ hf]
  rw [apply] at h
  split_ifs at h with hconst hbeg hsuffix hcont
  · rw [Option.some.injEq] at h
    rw [patternIsConstant, all_eq_true] at hconst
    have hbs := byteWildcards_append (fun b hb => isOrdinary_iff.1 (hconst b hb)) []
    rw [append_nil, byteWildcards_nil, append_nil] at hbs
    rw [← h, RewrittenLike.evaluate, Option.map_some, ← hval (string = pattern)
      (by rw [hbs, Wildcard.matches_segment, decide_eq_true_iff])]
    cases isNotLike <;> simp
  · rw [Option.some.injEq] at h
    rw [← h]
    obtain ⟨l, last, rfl, hl, hlst, hne⟩ := exists_of_patternIsPrefix hbeg
    refine hrule _ ?_
    rw [filter_append, filter_ne_percentage_of_ordinary hl, filter_ne_percentage_of_percentages hlst,
      append_nil, byteWildcards_append fun b hb => isOrdinary_iff.1 (hl b hb), Wildcard.matches_segment_append]
    exact decide_eq_true_iff.trans ⟨fun ⟨t, ht⟩ => ⟨t, ht.symm, matches_percentages hlst hne⟩,
      fun ⟨t, ht, _⟩ => ⟨t, ht.symm⟩⟩
  · rw [Option.some.injEq] at h
    rw [← h]
    obtain ⟨first, l, rfl, hfst, hne, hl⟩ := exists_of_patternIsSuffix hsuffix
    have hbs := byteWildcards_append (fun b hb => isOrdinary_iff.1 (hl b hb)) []
    rw [append_nil, byteWildcards_nil, append_nil] at hbs
    refine hrule _ ?_
    rw [filter_append, filter_ne_percentage_of_percentages hfst, filter_ne_percentage_of_ordinary hl,
      nil_append, matches_percentages_append hfst hne, hbs, Wildcard.matches_anything_segment]
    exact decide_eq_true_iff
  · rw [Option.some.injEq] at h
    rw [← h]
    obtain ⟨first, l, last, rfl, hfst, hl, hlst, hne, hnil⟩ := exists_of_patternIsContains hcont
    refine hrule _ ?_
    rw [filter_append, filter_append, filter_ne_percentage_of_percentages hfst,
      filter_ne_percentage_of_ordinary hl, filter_ne_percentage_of_percentages hlst, nil_append,
      append_nil, LikeFunction.holds, findStrInStr_eq, Wildcard.firstOccurrence_isSome_iff]
    by_cases hfirstNil : first = []
    · rw [hfirstNil, hnil hfirstNil, nil_append, nil_append]
      exact iff_of_true nil_infix (matches_percentages hlst hne)
    · rw [matches_percentages_append hfst hfirstNil, byteWildcards_append fun b hb => isOrdinary_iff.1 (hl b hb),
        Wildcard.matches_anything_iff_exists]
      constructor
      · rintro ⟨u, t, rfl⟩
        exact ⟨u, l ++ t, append_assoc u l t,
          Wildcard.matches_segment_append.2 ⟨t, rfl, matches_percentages hlst hne⟩⟩
      · rintro ⟨u, v, rfl, hv⟩
        obtain ⟨t, rfl, -⟩ := Wildcard.matches_segment_append.1 hv
        exact ⟨u, t, append_assoc u l t⟩

end LikeOptimizationRule

/-- All ways to match a text match it character by character: the generic operator, the matcher of constant patterns,
    and the rewritten forms. -/
theorem like_implementations_agree (string pattern : List Char) :
    (templatedLikeOperator (utf8Encode string) (utf8Encode pattern) = true ↔ LikeMatches pattern string) ∧
      (∀ m, LikeMatcher.createLikeMatcher (utf8Encode pattern) = some m →
        (m.matchString (utf8Encode string) = true ↔ LikeMatches pattern string)) ∧
      ∀ isNotLike rewritten, LikeOptimizationRule.apply isNotLike (some (utf8Encode pattern)) = some rewritten →
        ∃ b, rewritten.evaluate (some (utf8Encode string)) = some b ∧
          (b = true ↔ if isNotLike then ¬LikeMatches pattern string else LikeMatches pattern string) := by
  have hlike := templatedLikeOperator_utf8_iff string pattern
  refine ⟨hlike, fun m hm => ?_, fun isNotLike rewritten h => ?_⟩
  · rw [LikeMatcher.createLikeMatcher_iff hm, ← templatedLikeOperator_iff, hlike]
  · refine ⟨_, LikeOptimizationRule.apply_evaluate h _, ?_⟩
    cases isNotLike with
    | true =>
      rw [if_pos rfl, if_pos rfl, Bool.not_eq_true', ← hlike, Bool.not_eq_true]
    | false => rw [if_neg Bool.false_ne_true, if_neg Bool.false_ne_true, hlike]

theorem like_implementations_agree_suffix : (∃ m, LikeMatcher.createLikeMatcher (utf8Encode ['%', 'é']) = some m ∧
        (m.matchString (utf8Encode ['a', 'é']) = true ↔ LikeMatches ['%', 'é'] ['a', 'é'])) ∧
      ∃ rewritten, LikeOptimizationRule.apply false (some (utf8Encode ['%', 'é'])) = some rewritten ∧
        ∃ b, rewritten.evaluate (some (utf8Encode ['a', 'é'])) = some b ∧
          (b = true ↔ LikeMatches ['%', 'é'] ['a', 'é']) :=
  have h := like_implementations_agree ['a', 'é'] ['%', 'é']
  ⟨⟨_, rfl, h.2.1 _ rfl⟩, _, rfl, h.2.2 false _ rfl⟩

end WfOpt

import WfOpt.Function.Contains
import WfOpt.Function.Like

/-!
# The matcher of constant patterns

For a pattern without `_`, `LikeMatcher` keeps the segments between the `%`s. The first one is compared at the
beginning of the string and the last one at its end, if no `%` is there. The others are searched from left to right,
each behind where the last one was first found. What the matcher accepts is what matches the pattern
(`LikeMatcher.matchString_iff`).
-/

namespace WfOpt

open List

open Wildcard (Matches)

/-- `LikeMatcher` -/
structure LikeMatcher where
  segments : List (List UInt8)
  hasStartPercentage : Bool
  hasEndPercentage : Bool
  segments_ne_nil : segments ≠ []

namespace LikeMatcher

/-- The main match loop, and the last segment. -/
def matchLoop (hasEndPercentage : Bool) : List (List UInt8) → List UInt8 → Bool
  | [], _ => false
  | [segment], str =>
    if !hasEndPercentage then
      if str.length < segment.length then false
      else str.drop (str.length - segment.length) = segment
    else (findStrInStr str segment).isSome
  | segment :: segments, str =>
    match findStrInStr str segment with
    | none => false
    | some nextOffset => matchLoop hasEndPercentage segments (str.drop (nextOffset + segment.length))

/-- `LikeMatcher::Match` -/
def matchString (m : LikeMatcher) (str : List UInt8) : Bool := if !m.hasStartPercentage then
    let segment := m.segments.head m.segments_ne_nil
    if str.length < segment.length then false
    else if str.take segment.length ≠ segment then false
    else
      let str := str.drop segment.length
      if m.segments.length = 1 then m.hasEndPercentage || str = []
      else matchLoop m.hasEndPercentage m.segments.tail str
  else matchLoop m.hasEndPercentage m.segments str

/-- The variables of `CreateLikeMatcher`. -/
structure Scan where
  segments : List (List UInt8) := []
  lastNonPattern : ℕ := 0
  hasStartPercentage : Bool := false
  hasEndPercentage : Bool := false

/-- The loop of `CreateLikeMatcher`, over the bytes from the `i`th on -/
def scan (likePattern : List UInt8) (escape : UInt8) : (i : ℕ) → List UInt8 → Scan → Option Scan
  | _, [], st => some st
  | i, ch :: rest, st =>
    if ch = escape ∨ ch = percentage ∨ ch = underscore then
      let segments :=
        if st.lastNonPattern < i then
          st.segments ++ [(likePattern.drop st.lastNonPattern).take (i - st.lastNonPattern)]
        else st.segments
      if ch = escape ∨ ch = underscore then none
      else
        scan likePattern escape (i + 1) rest
          { segments := segments
            lastNonPattern := i + 1
            hasStartPercentage := if i = 0 then true else st.hasStartPercentage
            hasEndPercentage := if i + 1 = likePattern.length then true else st.hasEndPercentage }
    else scan likePattern escape (i + 1) rest st

/-- The segments with the one behind the loop. -/
def Scan.finish (st : Scan) (likePattern : List UInt8) : List (List UInt8) :=
  if st.lastNonPattern < likePattern.length then
    st.segments ++ [(likePattern.drop st.lastNonPattern).take (likePattern.length - st.lastNonPattern)]
  else st.segments

/-- `LikeMatcher::CreateLikeMatcher`, with the default of `escape` -/
def createLikeMatcher (likePattern : List UInt8) (escape : UInt8 := 0) : Option LikeMatcher :=
  match scan likePattern escape 0 likePattern {} with
  | none => none
  | some st =>
    if h : st.finish likePattern = [] then none
    else
      some
        { segments := st.finish likePattern
          hasStartPercentage := st.hasStartPercentage
          hasEndPercentage := st.hasEndPercentage
          segments_ne_nil := h }

/-! ## Segments of a pattern -/

/-- The segments of a pattern without `_`, of which the bytes `current` of the first one are before it. -/
def pieces : (current pattern : List UInt8) → List (List UInt8)
  | current, [] => if current = [] then [] else [current]
  | current, ch :: pattern =>
    if ch = percentage then if current = [] then pieces [] pattern else current :: pieces [] pattern
    else pieces (current ++ [ch]) pattern

/-- There is a `%` at the end. -/
def endsWithPercentage (pattern : List UInt8) : Bool := pattern.getLast? = some percentage

theorem endsWithPercentage_cons {ch : UInt8} {pattern : List UInt8} (hne : pattern ≠ []) :
    endsWithPercentage (ch :: pattern) = endsWithPercentage pattern := by
  obtain ⟨ch', pattern, rfl⟩ := exists_cons_of_ne_nil hne
  rw [endsWithPercentage, endsWithPercentage, getLast?_cons_cons]

theorem pieces_ne_nil {current : List UInt8} (hne : current ≠ []) (pattern : List UInt8) :
    pieces current pattern ≠ [] := by
  induction pattern generalizing current with
  | nil =>
    rw [pieces, if_neg hne]
    exact cons_ne_nil _ _
  | cons ch pattern ih =>
    rw [pieces]
    split_ifs
    · exact cons_ne_nil _ _
    · exact ih (append_ne_nil_of_right_ne_nil _ (cons_ne_nil ch []))

theorem endsWithPercentage_of_pieces_eq_nil {pattern : List UInt8} (h : pieces [] pattern = []) :
    endsWithPercentage (percentage :: pattern) = true := by
  induction pattern with
  | nil => rfl
  | cons ch pattern ih =>
    rw [pieces] at h
    split_ifs at h with hp
    · rw [hp]
      exact ih h
    · exact absurd h (pieces_ne_nil (append_ne_nil_of_right_ne_nil _ (cons_ne_nil ch [])) pattern)

variable {likePattern : List UInt8} {escape : UInt8}

/-- The bytes since the last `%` are pushed, if there are some. -/
theorem push_segment {segments : List (List UInt8)} {seen current rest : List UInt8} {i : ℕ}
    (hpat : likePattern = seen ++ current ++ rest) (hi : i = (seen ++ current).length) :
    (if seen.length < i then segments ++ [(likePattern.drop seen.length).take (i - seen.length)] else segments) =
      segments ++ if current = [] then [] else [current] := by
  subst hi
  rw [length_append, Nat.add_sub_cancel_left, hpat, append_assoc, drop_left, take_left]
  cases current with
  | nil => simp
  | cons b current => simp

/-- What the loop finds behind a part that it has seen, the last bytes of which begin a segment. -/
theorem scan_eq_some {st st' : Scan} {seen current rest : List UInt8} {i : ℕ}
    (hpat : likePattern = seen ++ current ++ rest) (hi : i = (seen ++ current).length)
    (hlst : st.lastNonPattern = seen.length) (h : scan likePattern escape i rest st = some st') :
    (∀ b ∈ rest, b ≠ underscore) ∧ st'.finish likePattern = st.segments ++ pieces current rest ∧
      (st'.hasStartPercentage = true ↔ st.hasStartPercentage = true ∨ i = 0 ∧ rest.head? = some percentage) ∧
      st'.hasEndPercentage = (st.hasEndPercentage || endsWithPercentage rest) := by
  induction rest generalizing st seen current i with
  | nil =>
    rw [scan, Option.some.injEq] at h
    subst h
    have hlen : likePattern.length = (seen ++ current).length := by rw [hpat, append_nil]
    rw [Scan.finish, hlst, push_segment hpat hlen]
    exact ⟨(fun b hb => nomatch hb), rfl, by simp, (Bool.or_false _).symm⟩
  | cons ch rest ih =>
    rw [scan] at h
    by_cases hspec : ch = escape ∨ ch = percentage ∨ ch = underscore
    · rw [if_pos hspec] at h
      rw [hlst, push_segment hpat hi] at h
      by_cases hno : ch = escape ∨ ch = underscore
      · rw [if_pos hno] at h
        exact nomatch h
      rw [if_neg hno] at h
      rw [not_or] at hno
      have hp : ch = percentage := (hspec.resolve_left hno.1).resolve_right hno.2
      have hseen : likePattern = (seen ++ current ++ [ch]) ++ [] ++ rest := by
        rw [hpat, append_nil, append_assoc _ [ch] rest]
        rfl
      have hi' : i + 1 = ((seen ++ current ++ [ch]) ++ []).length := by
        rw [append_nil, length_append, ← hi]
        rfl
      have hend : i + 1 = likePattern.length ↔ rest = [] := by
        rw [hseen, length_append, ← hi', Nat.left_eq_add, length_eq_zero_iff]
      obtain ⟨hu, hfinish, hst, hend'⟩ := ih hseen hi' (hi'.trans (by rw [append_nil])) h
      refine ⟨forall_mem_cons.2 ⟨hno.2, hu⟩, ?_, ?_, ?_⟩
      · rw [hfinish, pieces, if_pos hp, append_assoc]
        split_ifs <;> rfl
      · rw [hst, hp]
        by_cases hz : i = 0
        · simp [hz]
        · simp [hz]
      · rw [hend']
        cases rest with
        | nil => simp [hend, hp, endsWithPercentage]
        | cons ch' rest => simp [hend, endsWithPercentage_cons (cons_ne_nil ch' rest)]
    · rw [if_neg hspec] at h
      rw [not_or, not_or] at hspec
      obtain ⟨-, hp, hu⟩ := hspec
      have hseen : likePattern = seen ++ (current ++ [ch]) ++ rest := by
        rw [hpat, ← append_assoc seen, append_assoc _ [ch] rest]
        rfl
      have hi' : i + 1 = (seen ++ (current ++ [ch])).length := by
        rw [← append_assoc, length_append, ← hi]
        rfl
      obtain ⟨hu', hfinish, hst, hend⟩ := ih hseen hi' hlst h
      refine ⟨forall_mem_cons.2 ⟨hu, hu'⟩, ?_, ?_, ?_⟩
      · rw [hfinish, pieces, if_neg hp]
      · rw [hst]
        simp [hp]
      · rw [hend]
        cases rest with
        | nil => simp [endsWithPercentage, hp]
        | cons ch' rest => rw [endsWithPercentage_cons (cons_ne_nil ch' rest)]

variable {skip : List UInt8 → List UInt8} {str : List UInt8}

variable (skip) in
/-- A pattern without `_` is the one of its segments, unless it begins with a `%`, and is so behind a `%`. -/
theorem matches_pieces_iff {pattern : List UInt8} (hu : ∀ b ∈ pattern, b ≠ underscore) :
    (∀ current, (current = [] → pattern.head? ≠ some percentage) → ∀ str, Matches skip (Wildcard.segment current ++ byteWildcards pattern) str ↔
        Matches skip (Wildcard.segments (endsWithPercentage pattern) (pieces current pattern)) str) ∧
      ∀ str, Matches skip (.anything :: byteWildcards pattern) str ↔
        Matches skip (.anything :: Wildcard.segments (endsWithPercentage pattern) (pieces [] pattern)) str := by
  induction pattern with
  | nil =>
    refine ⟨fun current _ str => ?_, fun str => Iff.rfl⟩
    rw [pieces]
    split_ifs with hnil
    · rw [hnil]
      exact Iff.rfl
    · exact Iff.rfl
  | cons ch pattern ih =>
    rw [forall_mem_cons] at hu
    obtain ⟨ihCurrent, ih⟩ := ih hu.2
    by_cases hp : ch = percentage
    · subst hp
      -- The wildcard at the end is the only one if there are no further segments.
      have hopen : ∀ str, Matches skip (.anything :: byteWildcards pattern) str ↔
          Matches skip (.anything :: Wildcard.segments (endsWithPercentage (percentage :: pattern))
            (pieces [] pattern)) str := by
        intro str
        cases pattern with
        | nil => exact Wildcard.matches_anything_anything.symm
        | cons ch' pattern =>
          rw [endsWithPercentage_cons (cons_ne_nil ch' pattern)]
          exact ih str
      refine ⟨fun current hhead str => ?_, fun str => ?_⟩
      · have hne : current ≠ [] := fun h => hhead h rfl
        rw [byteWildcards_percentage, pieces, if_pos rfl, if_neg hne]
        by_cases hnil : pieces [] pattern = []
        · rw [hnil, Wildcard.segments, endsWithPercentage_of_pieces_eq_nil hnil, if_pos rfl]
          refine Wildcard.matches_congr_right (fun str => iff_of_true ?_ (Wildcard.matches_anything str)) _ str
          rw [hopen str, hnil, Wildcard.segments, endsWithPercentage_of_pieces_eq_nil hnil, if_pos rfl,
            Wildcard.matches_anything_anything]
          exact Wildcard.matches_anything str
        · rw [Wildcard.segments_cons_of_ne_nil hnil]
          exact Wildcard.matches_congr_right hopen _ str
      · rw [byteWildcards_percentage, Wildcard.matches_anything_anything, pieces, if_pos rfl, if_pos rfl]
        exact hopen str
    · have hcurr : ∀ current str, Matches skip (Wildcard.segment current ++ byteWildcards (ch :: pattern)) str ↔
          Matches skip (Wildcard.segments (endsWithPercentage (ch :: pattern)) (pieces current (ch :: pattern))) str := by
        intro current str
        have hend : endsWithPercentage (ch :: pattern) = endsWithPercentage pattern := by
          cases pattern with
          | nil => simp [endsWithPercentage, hp]
          | cons ch' pattern => rw [endsWithPercentage_cons (cons_ne_nil ch' pattern)]
        rw [hend, byteWildcards_cons hp hu.1, pieces, if_neg hp,
          ← ihCurrent _ fun h => absurd h (append_ne_nil_of_right_ne_nil _ (cons_ne_nil ch []))]
        simp [Wildcard.segment]
      exact ⟨fun current _ => hcurr current, Wildcard.matches_congr_right (hcurr []) [.anything]⟩

/-- The main loop searches the segments one after the other. -/
theorem matchLoop_eq {hasEndPercentage : Bool} {segments : List (List UInt8)} (hne : segments ≠ []) :
    matchLoop hasEndPercentage segments str = Wildcard.matchSegments hasEndPercentage segments str := by
  induction segments generalizing str with
  | nil => exact absurd rfl hne
  | cons segment segments ih =>
    cases segments with
    | nil =>
      rw [matchLoop, Wildcard.matchSegments, findStrInStr_eq]
      cases hasEndPercentage with
      | true => rfl
      | false =>
        rw [if_pos (by rfl), if_neg Bool.false_ne_true]
        split_ifs with hlt
        · exact (decide_eq_false fun h => hlt.not_ge h.length_le).symm
        · rw [decide_eq_decide, suffix_iff_eq_drop]
          exact eq_comm
    | cons segment' segments =>
      rw [matchLoop.eq_3 _ _ _ _ (cons_ne_nil _ _), Wildcard.matchSegments.eq_3 _ _ _ _ (cons_ne_nil _ _),
        findStrInStr_eq]
      cases Wildcard.firstOccurrence segment str with
      | none => rfl
      | some i => exact ih (cons_ne_nil _ _)

variable (skip) in
theorem matchString_iff (m : LikeMatcher) : m.matchString str = true ↔
      Matches skip ((if m.hasStartPercentage then [.anything] else []) ++
        Wildcard.segments m.hasEndPercentage m.segments) str := by
  obtain ⟨segments, hasStartPercentage, hasEndPercentage, hne⟩ := m
  rw [matchString]
  cases hasStartPercentage with
  | true =>
    rw [if_neg (by simp), matchLoop_eq hne, if_pos rfl]
    exact (Wildcard.matches_segments_iff hne).symm
  | false =>
    rw [if_pos (by rfl), if_neg Bool.false_ne_true, nil_append]
    obtain ⟨segment, segments, rfl⟩ := exists_cons_of_ne_nil hne
    dsimp only [head_cons, tail_cons]
    have hbeg : ∀ p, Matches skip (Wildcard.segment segment ++ p) str ↔
        ¬str.length < segment.length ∧ str.take segment.length = segment ∧
          Matches skip p (str.drop segment.length) := by
      intro p
      rw [Wildcard.matches_segment_append]
      constructor
      · rintro ⟨t, rfl, h⟩
        rw [take_left, drop_left, length_append]
        exact ⟨(Nat.le_add_right _ _).not_gt, rfl, h⟩
      · rintro ⟨-, htake, h⟩
        have happ := take_append_drop segment.length str
        rw [htake] at happ
        exact ⟨_, happ.symm, h⟩
    by_cases hlt : str.length < segment.length
    · rw [if_pos hlt]
      refine iff_of_false Bool.false_ne_true fun h => ?_
      cases segments with
      | nil | cons segment' segments => exact ((hbeg _).1 h).1 hlt
    rw [if_neg hlt]
    by_cases htake : str.take segment.length = segment
    · rw [if_neg (not_not.2 htake)]
      cases segments with
      | nil =>
        rw [if_pos length_singleton, Wildcard.segments, hbeg, and_iff_right hlt, and_iff_right htake]
        cases hasEndPercentage with
        | true => exact iff_of_true rfl (Wildcard.matches_anything _)
        | false =>
          rw [if_neg Bool.false_ne_true, Wildcard.matches_nil_iff]
          exact decide_eq_true_iff
      | cons segment' segments =>
        rw [if_neg (by simp), Wildcard.segments_cons_of_ne_nil (cons_ne_nil _ _), hbeg, and_iff_right hlt,
          and_iff_right htake, matchLoop_eq (cons_ne_nil _ _)]
        exact (Wildcard.matches_segments_iff (cons_ne_nil _ _)).symm
    · rw [if_pos htake]
      refine iff_of_false Bool.false_ne_true fun h => ?_
      cases segments with
      | nil | cons segment' segments => exact htake ((hbeg _).1 h).2.1

theorem createLikeMatcher_iff {m : LikeMatcher} (h : createLikeMatcher likePattern escape = some m) :
    m.matchString str = true ↔ Matches skip (byteWildcards likePattern) str := by
  rw [createLikeMatcher] at h
  cases hscan : scan likePattern escape 0 likePattern {} with
  | none =>
    rw [hscan] at h
    exact nomatch h
  | some st =>
    rw [hscan] at h
    dsimp only at h
    split_ifs at h with hnil
    rw [Option.some.injEq] at h
    have hpat : likePattern = [] ++ [] ++ likePattern := rfl
    obtain ⟨hu, hfinish, hst, hend⟩ := scan_eq_some hpat rfl rfl hscan
    obtain ⟨hpieces, hpieces'⟩ := matches_pieces_iff skip hu
    rw [matchString_iff skip, ← h]
    change Matches skip ((if st.hasStartPercentage then [.anything] else []) ++
      Wildcard.segments st.hasEndPercentage (st.finish likePattern)) str ↔ _
    have hfinish' : st.finish likePattern = pieces [] likePattern := hfinish
    have hend' : st.hasEndPercentage = endsWithPercentage likePattern := hend
    have hst' : st.hasStartPercentage = true ↔ likePattern.head? = some percentage := by simpa using hst
    rw [hfinish', hend']
    by_cases hhead : likePattern.head? = some percentage
    · rw [if_pos (hst'.2 hhead), singleton_append, ← hpieces']
      obtain ⟨rest, rfl⟩ := head?_eq_some_iff.1 hhead
      exact Wildcard.matches_anything_anything
    · rw [if_neg (mt hst'.1 hhead), nil_append, ← hpieces [] fun _ => hhead]
      exact Iff.rfl

end LikeMatcher

end WfOpt

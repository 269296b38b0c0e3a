import Mathlib

/-!
# Patterns with wildcards

A pattern is a list of *wildcards*: anything, one element, or a given element. How much of a list one element takes
is a parameter (`skip`). Behind anything, a segment of given elements can be taken where it first occurs, if
anything follows it (`matches_segment_iff`), so that a left-to-right search that does not go back is enough
(`matches_segments_iff`).
-/

namespace WfOpt

open List

/-- An element of a pattern. -/
inductive Wildcard (α : Type*)
  | anything
  | one
  | exactly (x : α)
  deriving DecidableEq

namespace Wildcard

/-- A list matches a pattern, where `skip` drops what one element takes. -/
inductive Matches {α : Type*} (skip : List α → List α) : List (Wildcard α) → List α → Prop
  | nil : Matches skip [] []
  | anything_nil {p : List (Wildcard α)} {s : List α} : Matches skip p s → Matches skip (anything :: p) s
  | anything_cons {p : List (Wildcard α)} {x : α} {s : List α} :
      Matches skip (anything :: p) s → Matches skip (anything :: p) (x :: s)
  | one {p : List (Wildcard α)} {x : α} {s : List α} :
      Matches skip p (skip (x :: s)) → Matches skip (one :: p) (x :: s)
  | exactly {p : List (Wildcard α)} {x : α} {s : List α} : Matches skip p s → Matches skip (exactly x :: p) (x :: s)

variable {α : Type*} {skip : List α → List α} {p q : List (Wildcard α)} {s : List α} {x : α}

theorem matches_nil_iff : Matches skip [] s ↔ s = [] := by
  constructor
  · intro h
    cases h
    rfl
  · rintro rfl
    exact .nil

theorem matches_exactly_iff : Matches skip (exactly x :: p) s ↔ ∃ t, s = x :: t ∧ Matches skip p t := by
  constructor
  · intro h
    cases h with
    | exactly h => exact ⟨_, rfl, h⟩
  · rintro ⟨t, rfl, h⟩
    exact .exactly h

theorem matches_one_iff : Matches skip (one :: p) s ↔ s ≠ [] ∧ Matches skip p (skip s) := by
  constructor
  · intro h
    cases h with
    | one h => exact ⟨cons_ne_nil _ _, h⟩
  · rintro ⟨hne, h⟩
    cases s with
    | nil => exact absurd rfl hne
    | cons x s => exact .one h

theorem matches_anything_iff :
    Matches skip (anything :: p) s ↔ Matches skip p s ∨ ∃ x t, s = x :: t ∧ Matches skip (anything :: p) t := by
  constructor
  · intro h
    cases h with
    | anything_nil h => exact .inl h
    | anything_cons h => exact .inr ⟨_, _, rfl, h⟩
  · rintro (h | ⟨x, t, rfl, h⟩)
    · exact .anything_nil h
    · exact .anything_cons h

/-- What comes before a match of anything is part of it. -/
theorem Matches.append_left (h : Matches skip (anything :: p) s) (u : List α) :
    Matches skip (anything :: p) (u ++ s) := by
  induction u with
  | nil => exact h
  | cons x u ih => exact .anything_cons ih

theorem matches_anything_iff_exists : Matches skip (anything :: p) s ↔ ∃ u t, s = u ++ t ∧ Matches skip p t := by
  constructor
  · intro h
    induction s with
    | nil =>
      rcases matches_anything_iff.1 h with h | ⟨x, t, heq, -⟩
      · exact ⟨[], [], rfl, h⟩
      · exact nomatch heq
    | cons y s ih =>
      rcases matches_anything_iff.1 h with h | ⟨x, t, heq, h⟩
      · exact ⟨[], y :: s, rfl, h⟩
      · cases heq
        obtain ⟨u, t, rfl, ht⟩ := ih h
        exact ⟨y :: u, t, rfl, ht⟩
  · rintro ⟨u, t, rfl, h⟩
    exact (Matches.anything_nil h).append_left u

theorem matches_anything (s : List α) : Matches skip [anything] s :=
  matches_anything_iff_exists.2 ⟨s, [], (append_nil s).symm, .nil⟩

/-- The same lists match what begins alike and goes on in equivalent ways. -/
theorem matches_congr_right (h : ∀ s, Matches skip p s ↔ Matches skip q s) (u : List (Wildcard α)) (s : List α) :
    Matches skip (u ++ p) s ↔ Matches skip (u ++ q) s := by
  induction u generalizing s with
  | nil => exact h s
  | cons w u ih =>
    cases w with
    | anything =>
      rw [cons_append, cons_append, matches_anything_iff_exists, matches_anything_iff_exists]
      exact exists_congr fun v => exists_congr fun t => and_congr_right' (ih t)
    | one =>
      rw [cons_append, cons_append, matches_one_iff, matches_one_iff]
      exact and_congr_right' (ih _)
    | exactly x =>
      rw [cons_append, cons_append, matches_exactly_iff, matches_exactly_iff]
      exact exists_congr fun t => and_congr_right' (ih t)

theorem matches_anything_anything : Matches skip (anything :: anything :: p) s ↔ Matches skip (anything :: p) s := by
  constructor
  · intro h
    obtain ⟨u, t, rfl, ht⟩ := matches_anything_iff_exists.1 h
    exact ht.append_left u
  · exact .anything_nil

/-! ## Segments -/

/-- The pattern of a given list. -/
def segment (l : List α) : List (Wildcard α) := l.map exactly

variable {l : List α}

theorem matches_segment_append : Matches skip (segment l ++ p) s ↔ ∃ t, s = l ++ t ∧ Matches skip p t := by
  induction l generalizing s with
  | nil => simp [segment]
  | cons x l ih =>
    rw [segment, map_cons, cons_append, matches_exactly_iff]
    constructor
    · rintro ⟨t, rfl, h⟩
      obtain ⟨t, rfl, ht⟩ := ih.1 h
      exact ⟨t, rfl, ht⟩
    · rintro ⟨t, rfl, h⟩
      exact ⟨l ++ t, rfl, ih.2 ⟨t, rfl, h⟩⟩

theorem matches_segment : Matches skip (segment l) s ↔ s = l := by
  rw [← append_nil (segment l), matches_segment_append]
  constructor
  · rintro ⟨t, rfl, h⟩
    rw [matches_nil_iff.1 h, append_nil]
  · rintro rfl
    exact ⟨[], (append_nil _).symm, .nil⟩

theorem matches_anything_segment : Matches skip (anything :: segment l) s ↔ l <:+ s := by
  rw [matches_anything_iff_exists]
  constructor
  · rintro ⟨u, t, rfl, h⟩
    rw [matches_segment.1 h]
    exact suffix_append u l
  · rintro ⟨u, rfl⟩
    exact ⟨u, l, rfl, matches_segment.2 rfl⟩

variable [DecidableEq α]

/-- Where a list first occurs in another one. -/
def firstOccurrence (l : List α) : List α → Option ℕ
  | [] => if l = [] then some 0 else none
  | x :: s => if l <+: x :: s then some 0 else (firstOccurrence l s).map (· + 1)

theorem firstOccurrence_of_prefix (h : l <+: s) : firstOccurrence l s = some 0 := by
  cases s with
  | nil => rw [firstOccurrence, if_pos (prefix_nil.1 h)]
  | cons x s => rw [firstOccurrence, if_pos h]

theorem eq_append_of_firstOccurrence {i : ℕ} (h : firstOccurrence l s = some i) :
    ∃ u t, s = u ++ (l ++ t) ∧ u.length = i := by
  induction s generalizing i with
  | nil =>
    rw [firstOccurrence] at h
    by_cases hl : l = []
    · rw [if_pos hl] at h
      cases h
      exact ⟨[], [], by rw [hl]; rfl, rfl⟩
    · rw [if_neg hl] at h
      exact nomatch h
  | cons x s ih =>
    rw [firstOccurrence] at h
    by_cases hl : l <+: x :: s
    · rw [if_pos hl] at h
      cases h
      obtain ⟨t, heq⟩ := hl
      exact ⟨[], t, heq.symm, rfl⟩
    · rw [if_neg hl] at h
      obtain ⟨j, hj, rfl⟩ := Option.map_eq_some_iff.1 h
      obtain ⟨u, t, rfl, rfl⟩ := ih hj
      exact ⟨x :: u, t, rfl, rfl⟩

theorem exists_firstOccurrence_le {l u t : List α} : ∃ i ≤ u.length, firstOccurrence l (u ++ (l ++ t)) = some i := by
  induction u with
  | nil => exact ⟨0, le_rfl, firstOccurrence_of_prefix (prefix_append l t)⟩
  | cons x u ih =>
    by_cases hl : l <+: x :: (u ++ (l ++ t))
    · exact ⟨0, Nat.zero_le _, firstOccurrence_of_prefix hl⟩
    · obtain ⟨i, hi, heq⟩ := ih
      refine ⟨i + 1, Nat.succ_le_succ hi, ?_⟩
      rw [cons_append, firstOccurrence, if_neg hl, heq]
      rfl

theorem firstOccurrence_isSome_iff : (firstOccurrence l s).isSome = true ↔ l <:+: s := by
  rw [Option.isSome_iff_exists]
  constructor
  · rintro ⟨i, h⟩
    obtain ⟨u, t, rfl, -⟩ := eq_append_of_firstOccurrence h
    exact ⟨u, t, append_assoc u l t⟩
  · rintro ⟨u, t, rfl⟩
    obtain ⟨i, -, h⟩ := exists_firstOccurrence_le (l := l) (u := u) (t := t)
    exact ⟨i, by rw [append_assoc, h]⟩

theorem firstOccurrence_eq_none (hne : l ≠ []) (hno : ∀ i < s.length, ¬l <+: s.drop i) :
    firstOccurrence l s = none := by
  induction s with
  | nil => rw [firstOccurrence, if_neg hne]
  | cons x s ih =>
    have hz : ¬l <+: x :: s := hno 0 (Nat.zero_lt_succ _)
    rw [firstOccurrence, if_neg hz, ih fun i hi => hno (i + 1) (Nat.succ_lt_succ hi)]
    rfl

/-- Where it does not begin, it need not be looked for. -/
theorem firstOccurrence_drop {k : ℕ} (hk : k ≤ s.length) (hno : ∀ i < k, ¬l <+: s.drop i) :
    firstOccurrence l s = (firstOccurrence l (s.drop k)).map (k + ·) := by
  induction k generalizing s with
  | zero => simp
  | succ k ih =>
    cases s with
    | nil => exact nomatch hk
    | cons x s =>
      have hz : ¬l <+: x :: s := hno 0 (Nat.zero_lt_succ k)
      rw [firstOccurrence, if_neg hz, drop_succ_cons,
        ih (Nat.le_of_succ_le_succ hk) fun i hi => hno (i + 1) (Nat.succ_lt_succ hi), Option.map_map]
      congr 1
      funext i
      exact (Nat.succ_add k i).symm

theorem firstOccurrence_eq_some_iff {i : ℕ} (hne : l ≠ []) :
    firstOccurrence l s = some i ↔ l <+: s.drop i ∧ ∀ j < i, ¬l <+: s.drop j := by
  constructor
  · intro h
    obtain ⟨u, t, rfl, rfl⟩ := eq_append_of_firstOccurrence h
    refine ⟨by rw [drop_left]; exact prefix_append l t, ?_⟩
    rintro j hj ⟨v, hv⟩
    obtain ⟨i, hi, heq⟩ := exists_firstOccurrence_le (l := l) (u := (u ++ (l ++ t)).take j) (t := v)
    rw [hv, take_append_drop, h] at heq
    have heq := Option.some.inj heq
    have hle := length_take_le j (u ++ (l ++ t))
    omega
  · rintro ⟨hbeg, hno⟩
    have hi : i ≤ s.length := by
      have hlen := hbeg.length_le
      have hpos := length_pos_iff.2 hne
      rw [length_drop] at hlen
      omega
    rw [firstOccurrence_drop hi hno, firstOccurrence_of_prefix hbeg]
    rfl

/-- Between wildcards, a segment is taken where it first occurs: what follows a later occurrence follows this one too. -/
theorem matches_segment_iff : Matches skip (anything :: (segment l ++ anything :: p)) s ↔
      ∃ i, firstOccurrence l s = some i ∧ Matches skip (anything :: p) (s.drop (i + l.length)) := by
  constructor
  · intro h
    obtain ⟨u, v, rfl, hv⟩ := matches_anything_iff_exists.1 h
    obtain ⟨t, rfl, ht⟩ := matches_segment_append.1 hv
    obtain ⟨i, hi, heq⟩ := exists_firstOccurrence_le (l := l) (u := u) (t := t)
    refine ⟨i, heq, ?_⟩
    have hdrop : t = (u ++ (l ++ t)).drop (u.length + l.length) := by
      rw [← append_assoc, ← length_append, drop_left]
    obtain ⟨k, hk⟩ := Nat.exists_eq_add_of_le (Nat.add_le_add_right hi l.length)
    rw [hk, ← drop_drop] at hdrop
    rw [← take_append_drop k (drop (i + l.length) _), ← hdrop]
    exact ht.append_left _
  · rintro ⟨i, heq, h⟩
    obtain ⟨u, t, rfl, rfl⟩ := eq_append_of_firstOccurrence heq
    rw [← append_assoc, ← length_append, drop_left] at h
    exact matches_anything_iff_exists.2 ⟨u, l ++ t, rfl, matches_segment_append.2 ⟨t, rfl, h⟩⟩

/-- The pattern of segments between wildcards for anything, with one at the end if it is open. -/
def segments (isOpen : Bool) : List (List α) → List (Wildcard α)
  | [] => if isOpen then [anything] else []
  | [l] => segment l ++ if isOpen then [anything] else []
  | l :: ls => segment l ++ anything :: segments isOpen ls

omit [DecidableEq α] in
theorem segments_cons_of_ne_nil {isOpen : Bool} {ls : List (List α)} (hne : ls ≠ []) (l : List α) :
    segments isOpen (l :: ls) = segment l ++ anything :: segments isOpen ls := by
  obtain ⟨l', ls, rfl⟩ := exists_cons_of_ne_nil hne
  rfl

/-- A search for the segments one after the other, the last one at the end unless it is open. -/
def matchSegments (isOpen : Bool) : List (List α) → List α → Bool
  | [], s => isOpen || s = []
  | [l], s => if isOpen then (firstOccurrence l s).isSome else l <:+ s
  | l :: ls, s =>
    match firstOccurrence l s with
    | none => false
    | some i => matchSegments isOpen ls (s.drop (i + l.length))

theorem matches_segments_iff {isOpen : Bool} {ls : List (List α)} (hne : ls ≠ []) :
    Matches skip (anything :: segments isOpen ls) s ↔ matchSegments isOpen ls s = true := by
  induction ls generalizing s with
  | nil => exact absurd rfl hne
  | cons l ls ih =>
    cases ls with
    | nil =>
      cases isOpen with
      | true =>
        rw [segments, if_pos rfl, matches_segment_iff, matchSegments, if_pos rfl, Option.isSome_iff_exists]
        exact exists_congr fun i => and_iff_left (matches_anything _)
      | false =>
        rw [segments, if_neg Bool.false_ne_true, append_nil, matches_anything_segment, matchSegments,
          if_neg Bool.false_ne_true, decide_eq_true_iff]
    | cons l' ls =>
      rw [segments, matches_segment_iff, matchSegments]
      · cases h : firstOccurrence l s with
        | none => simp
        | some i => simpa using ih (cons_ne_nil l' ls)
      all_goals exact fun h => nomatch h

end Wildcard

end WfOpt

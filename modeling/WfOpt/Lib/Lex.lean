import Mathlib

/-!
# Lexicographic orders

Lists are compared lexicographically. Lists that are put together from parts are compared part by
part, as long as no part is a proper prefix of the other (`append_lt_append_iff`).
-/

namespace WfOpt

open List

variable {α : Type*}

/-- Neither of the lists is a proper prefix of the other. -/
def PrefixFree (a b : List α) : Prop := (a <+: b → a = b) ∧ (b <+: a → a = b)

instance [DecidableEq α] (a b : List α) : Decidable (PrefixFree a b) :=
  inferInstanceAs (Decidable ((a <+: b → a = b) ∧ (b <+: a → a = b)))

variable {a b : List α}

theorem PrefixFree.symm (h : PrefixFree a b) : PrefixFree b a := ⟨fun h' => (h.2 h').symm, fun h' => (h.1 h').symm⟩

theorem PrefixFree.of_length_eq (h : a.length = b.length) : PrefixFree a b :=
  ⟨fun h' => h'.eq_of_length h, fun h' => (h'.eq_of_length h.symm).symm⟩

theorem PrefixFree.tail {x : α} (h : PrefixFree (x :: a) (x :: b)) : PrefixFree a b :=
  ⟨fun h' => (cons.inj (h.1 ((prefix_cons_inj x).2 h'))).2, fun h' => (cons.inj (h.2 ((prefix_cons_inj x).2 h'))).2⟩

variable {a b c d : List α}

/-- Lists are compared by their first parts, and by the rest if these are equal. -/
theorem append_lt_append_iff [LinearOrder α] (h : PrefixFree a c) : a ++ b < c ++ d ↔ a < c ∨ (a = c ∧ b < d) := by
  induction a generalizing c with
  | nil =>
    obtain rfl := h.1 nil_prefix
    simp
  | cons x a ih =>
    cases c with
    | nil => exact absurd (h.2 nil_prefix) (by simp)
    | cons y c =>
      rw [cons_append, cons_append, cons_lt_cons_iff, cons_lt_cons_iff]
      rcases eq_or_ne x y with rfl | hne
      · simp [ih h.tail]
      · simp [hne]

/-- Lists are equal if both parts are. -/
theorem append_eq_append_iff_of_prefixFree (h : PrefixFree a c) : a ++ b = c ++ d ↔ a = c ∧ b = d := by
  constructor
  · intro heq
    have hac : a = c := by
      rcases prefix_or_prefix_of_prefix (prefix_append a b)
        (heq ▸ prefix_append c d) with h' | h'
      · exact h.1 h'
      · exact h.2 h'
    subst hac
    exact ⟨rfl, append_cancel_left heq⟩
  · rintro ⟨rfl, rfl⟩
    rfl

/-- First parts are equal if what the lists start with is, as far as these parts go. -/
theorem PrefixFree.eq_of_take (h : PrefixFree a c) {n : ℕ} (ha : a.length ≤ n)
    (hc : c.length ≤ n) (heq : (a ++ b).take n = (c ++ d).take n) : a = c := by
  rw [take_append, take_append, take_of_length_le ha, take_of_length_le hc] at heq
  exact ((append_eq_append_iff_of_prefixFree h).1 heq).1

theorem PrefixFree.take (h : PrefixFree a b) (n : ℕ) : PrefixFree (a.take n) (b.take n) := by
  have hle : ∀ {a b : List α}, PrefixFree a b → a.take n <+: b.take n → a.take n = b.take n := by
    intro a b h hpre
    rcases le_total n a.length with hn | hn
    · refine hpre.eq_of_length_le ?_
      rw [length_take_of_le hn]
      exact length_take_le n b
    · rw [take_of_length_le hn] at hpre
      rw [h.1 (hpre.trans <| take_prefix n b)]
  exact ⟨hle h, fun hpre => (hle h.symm hpre).symm⟩

/-- Lists are compared by as many elements as both have, and by their lengths if these are equal. -/
theorem lt_iff_take_min [LinearOrder α] (a b : List α) :
    a < b ↔ a.take (min a.length b.length) < b.take (min a.length b.length) ∨
      a.take (min a.length b.length) = b.take (min a.length b.length) ∧ a.length < b.length := by
  rcases le_total a.length b.length with h | h
  · rw [min_eq_left h, take_length]
    have hfree : PrefixFree a (b.take a.length) := .of_length_eq (length_take_of_le h).symm
    have happ := append_lt_append_iff (b := []) (d := b.drop a.length) hfree
    rw [append_nil, take_append_drop] at happ
    rw [happ]
    refine or_congr_right (and_congr_right fun _ => ?_)
    rw [← Nat.sub_pos_iff_lt, ← length_drop]
    cases b.drop a.length with
    | nil => exact iff_of_false (not_lt_nil _) (Nat.lt_irrefl 0)
    | cons x l => exact iff_of_true (nil_lt_cons x l) (Nat.succ_pos _)
  · rw [min_eq_right h, take_length]
    have hfree : PrefixFree (a.take b.length) b := .of_length_eq (length_take_of_le h)
    have happ := append_lt_append_iff (b := a.drop b.length) (d := []) hfree
    rw [append_nil, take_append_drop] at happ
    rw [happ]
    refine or_congr_right (and_congr_right fun _ => ?_)
    exact iff_of_false (not_lt_nil _) (not_lt.2 h)

theorem PrefixFree.append (h : PrefixFree a c) (h' : PrefixFree b d) : PrefixFree (a ++ b) (c ++ d) := by
  constructor
  · rintro ⟨t, ht⟩
    rw [append_assoc, append_eq_append_iff_of_prefixFree h] at ht
    obtain ⟨rfl, ht⟩ := ht
    rw [h'.1 ⟨t, ht⟩]
  · rintro ⟨t, ht⟩
    rw [append_assoc, append_eq_append_iff_of_prefixFree h.symm] at ht
    obtain ⟨rfl, ht⟩ := ht
    rw [h'.2 ⟨t, ht⟩]

theorem PrefixFree.cons (h : PrefixFree a b) (x : α) : PrefixFree (x :: a) (x :: b) :=
  ⟨fun h' => by rw [h.1 ((prefix_cons_inj x).1 h')], fun h' => by rw [h.2 ((prefix_cons_inj x).1 h')]⟩

theorem PrefixFree.map {β : Type*} {f : α → β} (hf : Function.Injective f)
    (h : PrefixFree a b) : PrefixFree (a.map f) (b.map f) := by
  constructor
  · intro h'
    obtain ⟨c, hc, heq⟩ := prefix_map_iff.1 h'
    obtain rfl := map_injective_iff.2 hf heq
    rw [h.1 hc]
  · intro h'
    obtain ⟨c, hc, heq⟩ := prefix_map_iff.1 h'
    obtain rfl := map_injective_iff.2 hf heq
    rw [h.2 hc]

/-- A map that reverses the order of the elements reverses the order of the lists. -/
theorem map_lt_map_iff_of_strictAnti {β : Type*} [LinearOrder α] [LinearOrder β] {f : α → β}
    (hf : StrictAnti f) (h : PrefixFree a b) : a.map f < b.map f ↔ b < a := by
  induction a generalizing b with
  | nil =>
    obtain rfl := h.1 nil_prefix
    simp
  | cons x a ih =>
    cases b with
    | nil => exact absurd (h.2 nil_prefix) (by simp)
    | cons y b =>
      rw [map_cons, map_cons, cons_lt_cons_iff, cons_lt_cons_iff, hf.lt_iff_gt]
      rcases eq_or_ne x y with rfl | hne
      · simp [ih h.tail]
      · simp [hne.symm, hf.injective.ne hne]

end WfOpt

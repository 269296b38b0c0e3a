import Mathlib

/-!
# Sorted tables

A table is a list of keys and values, sorted by the keys, each of which it has once. It is what its keys are looked
up to (`lookup`): a lookup may stop at the first key that is too large (`lookup_eq_some_iff`), or drop a part of the
table (`lookup_dropWhile`), and entries stored one after another give each key its value (`foldl_update_eq`).
-/

namespace WfOpt

open List Function

variable {α : Type*}

/-- The keys are sorted, and different. -/
def Increasing (l : List (ℕ × α)) : Prop := l.Pairwise fun p q => p.1 < q.1

/-- The value of a key: the search stops at a key that is larger. -/
def lookup (k : ℕ) : List (ℕ × α) → Option α
  | [] => none
  | p :: l => if p.1 = k then some p.2 else if k < p.1 then none else lookup k l

variable {l l' : List (ℕ × α)} {p : ℕ × α} {k : ℕ} {x : α}

theorem lookup_cons_self (k : ℕ) (x : α) (l : List (ℕ × α)) : lookup k ((k, x) :: l) = some x := if_pos rfl

theorem lookup_cons_of_lt (h : k < p.1) : lookup k (p :: l) = none := by
  rw [lookup, if_neg h.ne', if_pos h]

theorem lookup_cons_of_gt (h : p.1 < k) : lookup k (p :: l) = lookup k l := by
  rw [lookup, if_neg h.ne, if_neg h.not_gt]

theorem increasing_iff : Increasing l ↔ (l.map Prod.fst).Pairwise (· < ·) := pairwise_map.symm

theorem Increasing.tail (h : Increasing (p :: l)) : Increasing l := (pairwise_cons.1 h).2

theorem Increasing.lt (h : Increasing (p :: l)) {q : ℕ × α} (hq : q ∈ l) : p.1 < q.1 := (pairwise_cons.1 h).1 q hq

/-- Keys that are smaller than all keys of the table are not there. -/
theorem lookup_of_lt (h : ∀ q ∈ l, k < q.1) : lookup k l = none := by
  cases l with
  | nil => rfl
  | cons p l => exact lookup_cons_of_lt (h p mem_cons_self)

theorem Increasing.lookup_cons (h : Increasing (p :: l)) (k : ℕ) :
    lookup k (p :: l) = if p.1 = k then some p.2 else lookup k l := by
  refine if_congr Iff.rfl rfl ?_
  by_cases hlt : k < p.1
  · rw [if_pos hlt, lookup_of_lt fun q hq => hlt.trans (h.lt hq)]
  · exact if_neg hlt

theorem mem_of_lookup (h : lookup k l = some x) : (k, x) ∈ l := by
  induction l with
  | nil => exact nomatch h
  | cons p l ih =>
    rw [lookup] at h
    by_cases heq : p.1 = k
    · rw [if_pos heq] at h
      obtain rfl := Option.some.inj h
      exact heq ▸ mem_cons_self
    · rw [if_neg heq] at h
      by_cases hlt : k < p.1
      · rw [if_pos hlt] at h
        exact nomatch h
      · rw [if_neg hlt] at h
        exact mem_cons_of_mem _ (ih h)

theorem Increasing.lookup_eq_some_iff (h : Increasing l) : lookup k l = some x ↔ (k, x) ∈ l := by
  refine ⟨mem_of_lookup, fun hmem => ?_⟩
  induction l with
  | nil => exact absurd hmem not_mem_nil
  | cons p l ih =>
    rw [h.lookup_cons]
    rcases mem_cons.1 hmem with rfl | hmem
    · exact if_pos rfl
    · rw [if_neg (h.lt hmem).ne, ih h.tail hmem]

theorem Increasing.lookup_ne_none_iff (h : Increasing l) : lookup k l ≠ none ↔ k ∈ l.map Prod.fst := by
  rw [Option.ne_none_iff_exists', mem_map]
  constructor
  · rintro ⟨x, hx⟩
    exact ⟨(k, x), mem_of_lookup hx, rfl⟩
  · rintro ⟨p, hp, rfl⟩
    exact ⟨p.2, h.lookup_eq_some_iff.2 hp⟩

/-- Entries that are stored one after another. -/
theorem Increasing.foldl_update_eq {σ : ℕ → α} (h : Increasing l) (k : ℕ) :
    l.foldl (fun σ p => update σ p.1 p.2) σ k = (lookup k l).getD (σ k) := by
  induction l generalizing σ with
  | nil => rfl
  | cons p l ih =>
    rw [foldl_cons, ih h.tail, h.lookup_cons]
    by_cases heq : p.1 = k
    · rw [if_pos heq, lookup_of_lt fun q hq => heq ▸ h.lt hq, heq, update_self]
      rfl
    · rw [if_neg heq, update_of_ne (Ne.symm heq)]

/-! ## Parts of tables -/

theorem Increasing.sublist (h : Increasing l) (hl : l'.Sublist l) : Increasing l' := List.Pairwise.sublist hl h

/-- The entries of the keys that are not smaller. -/
theorem Increasing.lookup_dropWhile (h : Increasing l) {m : ℕ} (hm : m ≤ k) :
    lookup k (l.dropWhile (·.1 < m)) = lookup k l := by
  induction l with
  | nil => rfl
  | cons p l ih =>
    by_cases hlt : p.1 < m
    · rw [dropWhile_cons, if_pos (decide_eq_true hlt), ih h.tail, lookup_cons_of_gt (hlt.trans_le hm)]
    · rw [dropWhile_cons, if_neg (by simpa using hlt)]

theorem lookup_takeWhile_of_le (l : List (ℕ × α)) {m : ℕ} (hm : m ≤ k) :
    lookup k (l.takeWhile (·.1 < m)) = none := by
  cases heq : lookup k (l.takeWhile (·.1 < m)) with
  | none => rfl
  | some x =>
    have hlt := mem_takeWhile_imp (mem_of_lookup heq)
    exact absurd (of_decide_eq_true hlt) (not_lt.2 hm)

/-- The rest starts with the key, or does not have it. -/
theorem Increasing.dropWhile_cases (h : Increasing l) (k : ℕ) :
    (∃ x rest, l.dropWhile (·.1 < k) = (k, x) :: rest ∧ lookup k l = some x) ∨
      (∀ p ∈ l.dropWhile (·.1 < k), k < p.1) ∧ lookup k l = none := by
  have hlook := h.lookup_dropWhile (le_refl k)
  have hinc : Increasing (l.dropWhile (·.1 < k)) := h.sublist (dropWhile_sublist _)
  cases hrst : l.dropWhile (·.1 < k) with
  | nil =>
    rw [hrst] at hlook
    exact .inr ⟨fun p hp => absurd hp not_mem_nil, hlook.symm⟩
  | cons p rest =>
    have hge : ¬p.1 < k := by
      have hne : l.dropWhile (fun p => decide (p.1 < k)) ≠ [] := by
        rw [hrst]
        exact cons_ne_nil _ _
      have hnot := head_dropWhile_not (fun p : ℕ × α => decide (p.1 < k)) hne
      simp only [hrst, decide_eq_false_iff_not] at hnot
      exact hnot
    rw [hrst] at hlook hinc
    rcases (not_lt.1 hge).eq_or_lt with heq | hlt
    · obtain ⟨k', x⟩ := p
      obtain rfl : k = k' := heq
      rw [lookup_cons_self] at hlook
      exact .inl ⟨x, rest, rfl, hlook.symm⟩
    · rw [lookup_cons_of_lt hlt] at hlook
      refine .inr ⟨fun q hq => ?_, hlook.symm⟩
      rcases mem_cons.1 hq with rfl | hq
      · exact hlt
      · exact hlt.trans (hinc.lt hq)

/-- A table is put together from smaller and larger keys. -/
theorem Increasing.append (h : Increasing l) (h' : Increasing l')
    (hlt : ∀ p ∈ l, ∀ q ∈ l', p.1 < q.1) : Increasing (l ++ l') := pairwise_append.2 ⟨h, h', hlt⟩

theorem Increasing.lookup_append (h : Increasing (l ++ l')) (k : ℕ) :
    lookup k (l ++ l') = (lookup k l).or (lookup k l') := by
  induction l with
  | nil => rfl
  | cons p l ih =>
    rw [cons_append] at h ⊢
    rw [h.lookup_cons, ih h.tail, (h.sublist (sublist_append_left (p :: l) l')).lookup_cons]
    by_cases heq : p.1 = k
    · rw [if_pos heq, if_pos heq, Option.some_or]
    · rw [if_neg heq, if_neg heq]

/-- The entries of a table before a key and from the key on. -/
theorem Increasing.lookup_split (h : Increasing l) (m k : ℕ) :
    lookup k l = (lookup k (l.takeWhile (·.1 < m))).or (lookup k (l.dropWhile (·.1 < m))) := by
  have hspl := takeWhile_append_dropWhile (p := fun q : ℕ × α => decide (q.1 < m)) (l := l)
  have hinc : Increasing (l.takeWhile (·.1 < m) ++ l.dropWhile (·.1 < m)) := by
    rw [hspl]
    exact h
  rw [← hinc.lookup_append, hspl]

end WfOpt

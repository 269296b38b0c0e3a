import Mathlib

/-!
# Marked positions

A sequence of rows is cut into groups by marking the rows that start a group. The groups of a range are found by its
*marks*, the marked positions in increasing order (`marks`), from its front (`nthMark`) or from its back
(`nthMarkBack`); if there are too few marks, the marks still to be found are counted. The groups are segments: from
a mark (`IsStartOf`) to the next one, or to the end of the rows (`IsEndOf`).
-/

namespace WfOpt

open List Nat

/-- The marked positions from `l` to `r`, in increasing order. -/
def marks (p : ℕ → Bool) (l r : ℕ) : List ℕ := (range' l (r - l)).filter p

/-- The `n`-th mark from the front, or the end of the range, and the marks that are missing. -/
def nthMark (p : ℕ → Bool) (l r n : ℕ) : ℕ × ℕ := ((marks p l r)[n - 1]?.getD r, n - (marks p l r).length)

/-- The `n`-th mark from the back, or the start of the range, and the marks that are missing. -/
def nthMarkBack (p : ℕ → Bool) (l r n : ℕ) : ℕ × ℕ :=
  ((marks p l r).reverse[n - 1]?.getD l, n - (marks p l r).length)

variable {p q : ℕ → Bool} {l m r n : ℕ}

/-! ## Marks of a range -/

@[simp] theorem mem_marks {i : ℕ} : i ∈ marks p l r ↔ l ≤ i ∧ i < r ∧ p i = true := by
  rw [marks, mem_filter, mem_range'_1, and_assoc]
  refine and_congr_right fun h => and_congr_left fun _ => ?_
  omega

theorem marks_congr (h : ∀ i, l ≤ i → i < r → p i = q i) : marks p l r = marks q l r := by
  refine filter_congr fun i hi => ?_
  rw [mem_range'_1] at hi
  exact h i hi.1 (by omega)

theorem marks_of_le (h : r ≤ l) : marks p l r = [] := by
  rw [marks, Nat.sub_eq_zero_of_le h]
  rfl

theorem marks_append (hl : l ≤ m) (hr : m ≤ r) : marks p l r = marks p l m ++ marks p m r := by
  obtain ⟨a, rfl⟩ := Nat.exists_eq_add_of_le hl
  obtain ⟨b, rfl⟩ := Nat.exists_eq_add_of_le hr
  have hlen : l + a + b - l = a + b := by omega
  rw [marks, marks, marks, hlen, Nat.add_sub_cancel_left, Nat.add_sub_cancel_left, ← filter_append, range'_append_1]

theorem marks_eq_nil (h : ∀ i, l ≤ i → i < r → p i = false) : marks p l r = [] := by
  rw [eq_nil_iff_forall_not_mem]
  intro i hi
  rw [mem_marks] at hi
  exact absurd hi.2.2 (by rw [h i hi.1 hi.2.1]; exact Bool.false_ne_true)

theorem marks_singleton (h : p l = true) : marks p l (l + 1) = [l] := by
  rw [marks, Nat.add_sub_cancel_left, range'_one, filter_cons_of_pos h, filter_nil]

theorem marks_cons (h : l < r) (hp : p l = true) : marks p l r = l :: marks p (l + 1) r := by
  rw [marks_append l.le_succ h, marks_singleton hp]
  rfl

theorem marks_concat (h : l < r) (hp : p (r - 1) = true) : marks p l r = marks p l (r - 1) ++ [r - 1] := by
  have hsucc : r - 1 + 1 = r := by omega
  have hlst := marks_singleton hp
  rw [hsucc] at hlst
  rw [marks_append (m := r - 1) (by omega) (by omega), hlst]

theorem marks_true : marks (fun _ => true) l r = range' l (r - l) := filter_true _

theorem marks_nodup : (marks p l r).Nodup := List.Nodup.filter _ nodup_range'

theorem marks_split (hl : l ≤ m) (hr : m < r) (hp : p m = true) :
    marks p l r = marks p l m ++ m :: marks p (m + 1) r := by
  rw [marks_append hl hr.le, marks_cons hr hp]

/-- A position that is not marked is left out. -/
theorem marks_skip (h : l < r) (hp : p l = false) : marks p l r = marks p (l + 1) r := by
  rw [marks_append l.le_succ h, marks_eq_nil, nil_append]
  intro i hi hi'
  rwa [Nat.le_antisymm (le_of_lt_succ hi') hi]

theorem marks_skip_last (h : l ≤ r) (hp : p r = false) : marks p l (r + 1) = marks p l r := by
  rw [marks_append h r.le_succ, marks_skip r.lt_succ_self hp, marks_of_le le_rfl, append_nil]

/-- Around the first mark, there are none before it. -/
theorem marks_of_head {rest : List ℕ} (h : marks p l r = m :: rest) :
    (l ≤ m ∧ m < r ∧ p m = true) ∧ marks p l m = [] ∧ marks p (m + 1) r = rest := by
  have hmark : l ≤ m ∧ m < r ∧ p m = true := mem_marks.1 (h ▸ mem_cons_self)
  obtain ⟨hl, hr, hp⟩ := hmark
  rw [marks_split hl hr hp] at h
  cases hbef : marks p l m with
  | nil =>
    rw [hbef, nil_append] at h
    exact ⟨⟨hl, hr, hp⟩, rfl, (cons.inj h).2⟩
  | cons i before =>
    rw [hbef, cons_append] at h
    have hi : i ∈ marks p l m := hbef ▸ mem_cons_self
    rw [mem_marks, (cons.inj h).1] at hi
    exact absurd hi.2.1 (Nat.lt_irrefl m)

theorem marks_of_last {rest : List ℕ} (h : (marks p l r).reverse = m :: rest) :
    (l ≤ m ∧ m < r ∧ p m = true) ∧ marks p (m + 1) r = [] ∧ (marks p l m).reverse = rest := by
  have hmark : l ≤ m ∧ m < r ∧ p m = true := mem_marks.1 (mem_reverse.1 (h ▸ mem_cons_self))
  obtain ⟨hl, hr, hp⟩ := hmark
  rw [marks_split hl hr hp, reverse_append, reverse_cons, append_assoc] at h
  cases hbhd : (marks p (m + 1) r).reverse with
  | nil =>
    rw [hbhd] at h
    exact ⟨⟨hl, hr, hp⟩, reverse_eq_nil_iff.1 hbhd, (cons.inj h).2⟩
  | cons i behind =>
    rw [hbhd, cons_append] at h
    have hi : i ∈ marks p (m + 1) r := mem_reverse.1 (hbhd ▸ mem_cons_self)
    rw [mem_marks, (cons.inj h).1] at hi
    exact absurd hi.1 (not_succ_le_self m)

/-- The index of a mark is the number of marks before it. -/
theorem length_marks_of_getElem {k : ℕ} (hk : (marks p l r)[k]? = some m) : (marks p l m).length = k := by
  obtain ⟨hlt, hm⟩ := List.getElem?_eq_some_iff.1 hk
  obtain ⟨hl, hr, hp⟩ := mem_marks.1 (mem_of_getElem? hk)
  have hspl := marks_split hl hr hp
  have hlen : (marks p l m).length < (marks p l r).length := by
    rw [hspl, length_append, length_cons]
    omega
  have hidx : (marks p l r)[(marks p l m).length] = m := by
    simp only [hspl, getElem_append_right le_rfl, Nat.sub_self, getElem_cons_zero]
  exact (marks_nodup.getElem_inj_iff).1 (hidx.trans hm.symm)

/-! ## From the front -/

theorem nthMark_of_le (h : r ≤ l) : nthMark p l r n = (r, n) := by
  rw [nthMark, marks_of_le h]
  rfl

/-- Positions without a mark are passed. -/
theorem nthMark_skip (hlm : l ≤ m) (h : ∀ i, l ≤ i → i < m → p i = false) : nthMark p l r n = nthMark p m r n := by
  rcases le_total m r with hmr | hrm
  · rw [nthMark, nthMark, marks_append hlm hmr, marks_eq_nil h, nil_append]
  · have hnil : marks p l r = [] := marks_eq_nil fun i hl hr => h i hl (hr.trans_le hrm)
    rw [nthMark_of_le hrm, nthMark, hnil]
    rfl

/-- The first mark is found. -/
theorem nthMark_one (h : l < r) (hp : p l = true) : nthMark p l r 1 = (l, 0) := by
  rw [nthMark, marks_cons h hp]
  exact Prod.ext rfl (Nat.sub_eq_zero_of_le (Nat.le_add_left 1 _))

theorem nthMark_count (h : l < r) (hp : p l = true) (hn : 2 ≤ n) :
    nthMark p l r n = nthMark p (l + 1) r (n - 1) := by
  obtain ⟨k, rfl⟩ := Nat.exists_eq_add_of_le hn
  have hk : 2 + k - 1 = k + 1 := by omega
  rw [nthMark, nthMark, marks_cons h hp, hk, getElem?_cons_succ, length_cons]
  refine Prod.ext rfl ?_
  omega

/-! ## From the back -/

theorem nthMarkBack_of_le (h : r ≤ l) : nthMarkBack p l r n = (l, n) := by
  rw [nthMarkBack, marks_of_le h]
  rfl

theorem nthMarkBack_skip (hmr : m ≤ r) (h : ∀ i, m ≤ i → i < r → p i = false) :
    nthMarkBack p l r n = nthMarkBack p l m n := by
  rcases le_total l m with hlm | hml
  · rw [nthMarkBack, nthMarkBack, marks_append hlm hmr, marks_eq_nil h, append_nil]
  · have hnil : marks p l r = [] := marks_eq_nil fun i hl hr => h i (hml.trans hl) hr
    rw [nthMarkBack_of_le hml, nthMarkBack, hnil]
    rfl

theorem nthMarkBack_one (h : l < r) (hp : p (r - 1) = true) : nthMarkBack p l r 1 = (r - 1, 0) := by
  rw [nthMarkBack, marks_concat h hp, reverse_append, length_append]
  exact Prod.ext rfl (Nat.sub_eq_zero_of_le (Nat.le_add_left 1 _))

theorem nthMarkBack_count (h : l < r) (hp : p (r - 1) = true) (hn : 2 ≤ n) :
    nthMarkBack p l r n = nthMarkBack p l (r - 1) (n - 1) := by
  obtain ⟨k, rfl⟩ := Nat.exists_eq_add_of_le hn
  have hk : 2 + k - 1 = k + 1 := by omega
  rw [nthMarkBack, nthMarkBack, marks_concat h hp, hk, reverse_append, reverse_singleton,
    singleton_append, getElem?_cons_succ, length_append, length_singleton]
  refine Prod.ext rfl ?_
  omega

/-- The marks from the back are those from the front, counted from the last one. -/
theorem nthMarkBack_fst (hn : 1 ≤ n) : (nthMarkBack p l r n).1 =
    if n ≤ (marks p l r).length then (marks p l r)[(marks p l r).length - n]?.getD l else l := by
  rw [nthMarkBack]
  by_cases h : n ≤ (marks p l r).length
  · have hidx : (marks p l r).length - 1 - (n - 1) = (marks p l r).length - n := by omega
    rw [if_pos h, getElem?_reverse (by omega), hidx]
  · rw [if_neg h, getElem?_eq_none (by rw [length_reverse]; omega), Option.getD_none]

/-! ## Segments -/

/-- The last mark up to `r`: the start of the segment of `r`. -/
structure IsStartOf (p : ℕ → Bool) (r v : ℕ) : Prop where
  marked : p v = true
  le : v ≤ r
  inner : ∀ i, v < i → i ≤ r → p i = false

/-- The first mark behind `r`, or the number of rows: the end of the segment of `r`. -/
structure IsEndOf (p : ℕ → Bool) (size r v : ℕ) : Prop where
  lt : r < v
  le : v ≤ size
  inner : ∀ i, r < i → i < v → p i = false
  stop : v = size ∨ p v = true

variable {size v w : ℕ}

/-- If the first row is marked, then one that is not has a row before it. -/
theorem exists_eq_succ_of_not_marked (hz : p 0 = true) (hr : p r = false) : ∃ r', r = r' + 1 :=
  exists_eq_succ_of_ne_zero fun h => Bool.false_ne_true (hr.symm.trans (h ▸ hz))

namespace IsStartOf

theorem self (h : p r = true) : IsStartOf p r r := ⟨h, le_rfl, fun _ h₁ h₂ => absurd h₁ (not_lt.2 h₂)⟩

/-- Without a mark, the next row is of the same segment. -/
theorem succ (h : IsStartOf p r v) (hp : p (r + 1) = false) : IsStartOf p (r + 1) v := by
  refine ⟨h.marked, le_succ_of_le h.le, fun i h₁ h₂ => ?_⟩
  rcases Nat.lt_or_ge r i with hlt | hge
  · rwa [show i = r + 1 by omega]
  · exact h.inner i h₁ hge

theorem pred (h : IsStartOf p (r + 1) v) (hp : p (r + 1) = false) : IsStartOf p r v := by
  refine ⟨h.marked, le_of_lt_succ (lt_of_le_of_ne h.le ?_), fun i h₁ h₂ => h.inner i h₁ (by omega)⟩
  rintro rfl
  exact Bool.false_ne_true (hp.symm.trans h.marked)

/-- A search backwards that goes as far as the start finds it. -/
theorem nthMarkBack_eq (h : IsStartOf p r v) (hl : l ≤ v) : (nthMarkBack p l (r + 1) 1).1 = v := by
  have hskip : nthMarkBack p l (r + 1) 1 = nthMarkBack p l (v + 1) 1 :=
    nthMarkBack_skip (succ_le_succ h.le) fun i h₁ h₂ => h.inner i h₁ (le_of_lt_succ h₂)
  rw [hskip, nthMarkBack_one (lt_succ_of_le hl) h.marked]
  rfl

theorem of_nthMarkBack (h₀ : p 0 = true) (r : ℕ) : IsStartOf p r (nthMarkBack p 0 (r + 1) 1).1 := by
  induction r with
  | zero =>
    rw [nthMarkBack_one Nat.one_pos h₀]
    exact self h₀
  | succ r ih =>
    cases hp : p (r + 1) with
    | true =>
      rw [nthMarkBack_one (succ_pos _) hp]
      exact self hp
    | false =>
      have hskip : nthMarkBack p 0 (r + 1 + 1) 1 = nthMarkBack p 0 (r + 1) 1 := by
        refine nthMarkBack_skip (r + 1).le_succ fun i h₁ h₂ => ?_
        rwa [show i = r + 1 by omega]
      rw [hskip]
      exact ih.succ hp

theorem unique (h : IsStartOf p r v) (h' : IsStartOf p r w) : v = w := by
  rcases Nat.lt_trichotomy v w with hlt | heq | hgt
  · exact absurd h'.marked (by rw [h.inner w hlt h'.le]; exact Bool.false_ne_true)
  · exact heq
  · exact absurd h.marked (by rw [h'.inner v hgt h.le]; exact Bool.false_ne_true)

/-- A later row of the segment has the same start. -/
theorem of_le (h : IsStartOf p r v) (hle : r ≤ m) (hp : ∀ i, r < i → i ≤ m → p i = false) : IsStartOf p m v := by
  refine ⟨h.marked, h.le.trans hle, fun i h₁ h₂ => ?_⟩
  rcases Nat.lt_or_ge r i with hlt | hge
  · exact hp i hlt h₂
  · exact h.inner i h₁ hge

end IsStartOf

namespace IsEndOf

theorem succ (h : IsEndOf p size r v) (hp : p (r + 1) = false) (hr : r + 1 < size) : IsEndOf p size (r + 1) v := by
  refine ⟨?_, h.le, fun i h₁ h₂ => h.inner i (lt_of_succ_lt h₁) h₂, h.stop⟩
  refine lt_of_le_of_ne h.lt ?_
  rintro rfl
  rcases h.stop with hsz | hmark
  · exact absurd hsz hr.ne
  · exact absurd hmark (by rw [hp]; exact Bool.false_ne_true)

/-- A later row of the segment has the same end. -/
theorem of_le (h : IsEndOf p size r v) (hle : r ≤ m) (hlt : m < v) : IsEndOf p size m v :=
  ⟨hlt, h.le, fun i h₁ h₂ => h.inner i (hle.trans_lt h₁) h₂, h.stop⟩

theorem pred (h : IsEndOf p size (r + 1) v) (hp : p (r + 1) = false) : IsEndOf p size r v := by
  refine ⟨lt_of_succ_lt h.lt, h.le, fun i h₁ h₂ => ?_, h.stop⟩
  rcases Nat.lt_or_ge (r + 1) i with hlt | hge
  · exact h.inner i hlt h₂
  · rwa [show i = r + 1 by omega]

/-- The search forwards finds the end. -/
theorem of_nthMark (hr : r < size) : IsEndOf p size r (nthMark p (r + 1) size 1).1 := by
  obtain ⟨k, rfl⟩ := Nat.exists_eq_add_of_le (show r + 1 ≤ size from hr)
  induction k generalizing r with
  | zero =>
    rw [nthMark_of_le le_rfl]
    exact ⟨lt_succ_self r, le_rfl, fun i h₁ h₂ => absurd h₁ (not_lt.2 (le_of_lt_succ h₂)), .inl rfl⟩
  | succ k ih =>
    cases hp : p (r + 1) with
    | true =>
      rw [nthMark_one (by omega) hp]
      exact ⟨lt_succ_self r, by omega, fun i h₁ h₂ => absurd h₁ (not_lt.2 (le_of_lt_succ h₂)), .inr hp⟩
    | false =>
      have hskip : nthMark p (r + 1) (r + 1 + (k + 1)) 1 = nthMark p (r + 1 + 1) (r + 1 + (k + 1)) 1 := by
        refine nthMark_skip (r + 1).le_succ fun i h₁ h₂ => ?_
        rwa [show i = r + 1 by omega]
      have hsz : r + 1 + (k + 1) = r + 1 + 1 + k := by omega
      rw [hskip, hsz]
      have ih' := ih (r := r + 1) (by omega)
      refine ⟨lt_of_succ_lt ih'.lt, ih'.le, fun i h₁ h₂ => ?_, ih'.stop⟩
      rcases Nat.lt_or_ge (r + 1) i with hlt | hge
      · exact ih'.inner i hlt h₂
      · rwa [show i = r + 1 by omega]

theorem of_start (h : IsStartOf p r v) (hr : r < size) : IsEndOf p size r (nthMark p (v + 1) size 1).1 := by
  have hskip : nthMark p (v + 1) size 1 = nthMark p (r + 1) size 1 :=
    nthMark_skip (succ_le_succ h.le) fun i h₁ h₂ => h.inner i h₁ (le_of_lt_succ h₂)
  rw [hskip]
  exact of_nthMark hr

theorem unique (h : IsEndOf p size r v) (h' : IsEndOf p size r w) : v = w := by
  have hle : ∀ {v w : ℕ}, IsEndOf p size r v → IsEndOf p size r w → v ≤ w := by
    intro v w hv hw
    by_contra hlt
    have hp := hv.inner w hw.lt (not_le.1 hlt)
    rcases hw.stop with hsz | hmark
    · exact absurd hv.le (not_le.2 (hsz ▸ not_le.1 hlt))
    · exact absurd hmark (by rw [hp]; exact Bool.false_ne_true)
  exact le_antisymm (hle h h') (hle h' h)

/-- Segments of finer marks end within the coarser ones. -/
theorem refine (h : IsEndOf q m r v) (h' : IsEndOf p size r m)
    (hpq : m < size → p m = true → q m = true) : IsEndOf q size r v := by
  refine ⟨h.lt, h.le.trans h'.le, h.inner, ?_⟩
  rcases h.stop with rfl | hmark
  · rcases h'.le.eq_or_lt with heq | hlt
    · exact .inl heq
    · exact h'.stop.imp_right (hpq hlt)
  · exact .inr hmark

end IsEndOf

end WfOpt

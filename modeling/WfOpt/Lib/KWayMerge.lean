import Mathlib

/-!
# Merging runs

Sorted runs of keys are merged in a total order of their elements, by key, run and position (`RunKeys.Before`). The
first `n` elements of the merge are cut off the runs at the positions `RunKeys.cut n`.

A *merge path* finds these positions without merging, by probing an element ahead in every run. As long as the
probes do not cover all elements that are missing, the smallest one of them is one of those (`RunKeys.probe_lt_cut`).
-/

namespace WfOpt

open Function Finset

variable {κ : Type*} [LinearOrder κ]

/-- The first of the indices with a smallest value, starting from `m`. -/
@[simp] def firstMin (f : ℕ → κ) : ℕ → List ℕ → ℕ
  | m, [] => m
  | m, r :: l => if f r < f m then firstMin f r l else firstMin f m l

theorem firstMin_mem (f : ℕ → κ) (m : ℕ) (l : List ℕ) : firstMin f m l ∈ m :: l := by
  induction l generalizing m with
  | nil => exact List.mem_cons_self
  | cons r l ih =>
    rw [firstMin]
    split_ifs
    · exact List.mem_cons_of_mem m (ih r)
    · rcases List.mem_cons.1 (ih m) with h | h
      · rw [h]
        exact List.mem_cons_self
      · exact List.mem_cons_of_mem m (List.mem_cons_of_mem r h)

/-- Among indices in increasing order, it is the least one with a smallest value. -/
theorem firstMin_le {f : ℕ → κ} {m : ℕ} {l : List ℕ} (h : (m :: l).Pairwise (· < ·)) :
    ∀ r ∈ m :: l, f (firstMin f m l) < f r ∨ (f (firstMin f m l) = f r ∧ firstMin f m l ≤ r) := by
  induction l generalizing m with
  | nil =>
    intro r hr
    rw [List.mem_singleton.1 hr]
    exact .inr ⟨rfl, le_rfl⟩
  | cons a l ih =>
    rw [firstMin]
    have hma : m < a := List.rel_of_pairwise_cons h List.mem_cons_self
    have htail : (m :: l).Pairwise (· < ·) := h.sublist ((List.sublist_cons_self a l).cons_cons m)
    split_ifs with hlt
    · intro r hr
      rcases List.mem_cons.1 hr with rfl | hr
      · -- The index given up has a larger value than one that is left.
        rcases ih h.of_cons a List.mem_cons_self with h' | ⟨h', -⟩
        · exact .inl (h'.trans hlt)
        · exact .inl (h'.trans_lt hlt)
      · exact ih h.of_cons r hr
    · intro r hr
      rcases List.mem_cons.1 hr with rfl | hr
      · exact ih htail r List.mem_cons_self
      rcases List.mem_cons.1 hr with rfl | hr
      · rcases ih htail m List.mem_cons_self with h' | ⟨h', hle⟩
        · exact .inl (h'.trans_le (not_lt.1 hlt))
        · rcases (not_lt.1 hlt).lt_or_eq with h'' | h''
          · exact .inl (h'.trans_lt h'')
          · exact .inr ⟨h'.trans h'', hle.trans hma.le⟩
      · exact ih htail r (List.mem_cons_of_mem m hr)

/-- The keys of sorted runs. -/
structure RunKeys (κ : Type*) [LinearOrder κ] where
  numRuns : ℕ
  count : ℕ → ℕ
  key : ℕ → ℕ → κ
  sorted : ∀ r < numRuns, ∀ i j, i ≤ j → j < count r → key r i ≤ key r j

namespace RunKeys

variable (s : RunKeys κ)

/-- The element `i` of the run `r` comes before the element `j` of the run `r'`. -/
def Before (r i r' j : ℕ) : Prop := s.key r i < s.key r' j ∨ (s.key r i = s.key r' j ∧ (r < r' ∨ (r = r' ∧ i < j)))

/-- The number of all elements. -/
def total : ℕ := ∑ r ∈ range s.numRuns, s.count r

/-- The runs that have elements left after the positions `c`. -/
def left (c : ℕ → ℕ) : List ℕ := (List.range s.numRuns).filter fun r => c r < s.count r

/-- One element is merged. -/
def advance (c : ℕ → ℕ) : ℕ → ℕ := match s.left c with
  | [] => c
  | m :: l =>
    let r := firstMin (fun r => s.key r (c r)) m l
    Function.update c r (c r + 1)

/-- Where the first `n` elements of the merge end in the runs. -/
@[simp] def cut : ℕ → ℕ → ℕ
  | 0 => fun _ => 0
  | n + 1 => s.advance (cut n)

variable {s}

theorem Before.asymm {r i r' j : ℕ} (h : s.Before r i r' j) : ¬s.Before r' j r i := by
  rintro h'
  rcases h with h | ⟨h₁, h₂⟩ <;> rcases h' with h' | ⟨h₁', h₂'⟩
  · exact lt_asymm h h'
  · exact h.ne h₁'.symm
  · exact h'.ne h₁.symm
  · omega

/-- One more element is taken from a run that has one left, before all others that are left. -/
theorem advance_cases (c : ℕ → ℕ) : (s.left c = [] ∧ s.advance c = c) ∨
      ∃ m < s.numRuns, c m < s.count m ∧ s.advance c = Function.update c m (c m + 1) ∧
        ∀ r < s.numRuns, c r < s.count r → r ≠ m → s.Before m (c m) r (c r) := by
  rw [advance]
  have hmem : ∀ r, r ∈ s.left c ↔ r < s.numRuns ∧ c r < s.count r := by simp [left]
  have hsort : (s.left c).Pairwise (· < ·) := List.pairwise_lt_range.sublist List.filter_sublist
  cases hl : s.left c with
  | nil => exact .inl ⟨rfl, rfl⟩
  | cons a l =>
    rw [hl] at hmem hsort
    obtain ⟨h₁, h₂⟩ := (hmem _).1 (firstMin_mem (fun r => s.key r (c r)) a l)
    refine .inr ⟨_, h₁, h₂, rfl, fun r hr hc hne => ?_⟩
    rcases firstMin_le (f := fun r => s.key r (c r)) hsort r ((hmem r).2 ⟨hr, hc⟩) with h | ⟨h, hle⟩
    · exact .inl h
    · exact .inr ⟨h, .inl (lt_of_le_of_ne hle hne.symm)⟩

theorem cut_le_count (n r : ℕ) : s.cut n r ≤ s.count r := by
  induction n with
  | zero => exact Nat.zero_le _
  | succ n ih =>
    rw [cut]
    rcases s.advance_cases (s.cut n) with ⟨-, h⟩ | ⟨m, -, hlt, h, -⟩
    · rwa [h]
    · rw [h]
      by_cases hrm : r = m
      · subst hrm
        rw [update_self]
        exact hlt
      · rwa [update_of_ne hrm]

theorem cut_le_succ (n r : ℕ) : s.cut n r ≤ s.cut (n + 1) r := by
  rw [cut]
  rcases s.advance_cases (s.cut n) with ⟨-, h⟩ | ⟨m, -, -, h, -⟩
  · rw [h]
  · rw [h]
    by_cases hrm : r = m
    · subst hrm
      rw [update_self]
      exact Nat.le_succ _
    · rw [update_of_ne hrm]

theorem cut_mono {n n' : ℕ} (h : n ≤ n') (r : ℕ) : s.cut n r ≤ s.cut n' r :=
  monotone_nat_of_le_succ (f := fun n => s.cut n r) (fun n => cut_le_succ n r) h

variable {n : ℕ}

/-- The positions of the first `n` elements add up to `n`. -/
theorem sum_cut (h : n ≤ s.total) : ∑ r ∈ range s.numRuns, s.cut n r = n := by
  induction n with
  | zero => simp [cut]
  | succ n ih =>
    have hn := ih (by omega)
    rw [cut]
    rcases s.advance_cases (s.cut n) with ⟨hnil, -⟩ | ⟨m, hm, -, hadv, -⟩
    · -- All runs would be used up by less elements than there are.
      have hall : s.total ≤ ∑ r ∈ range s.numRuns, s.cut n r := by
        refine sum_le_sum fun r hr => ?_
        by_contra hlt
        have : r ∈ s.left (s.cut n) := by
          simpa [left, List.mem_filter] using ⟨mem_range.1 hr, not_le.1 hlt⟩
        rw [hnil] at this
        exact List.not_mem_nil this
      omega
    · rw [hadv, sum_update_of_mem (mem_range.2 hm)]
      rw [← sum_erase_add _ _ (mem_range.2 hm), ← sdiff_singleton_eq_erase] at hn
      omega

/-- The merge is in order: an element it has taken comes before one it has not. -/
theorem before_of_cut {n r i r' j : ℕ} (hr : r < s.numRuns) (hr' : r' < s.numRuns)
    (hi : i < s.cut n r) (hj : s.cut n r' ≤ j) (hj' : j < s.count r') : s.Before r i r' j := by
  induction n with
  | zero => exact absurd hi (Nat.not_lt_zero i)
  | succ n ih =>
    have hmono := (cut_le_succ n r').trans hj
    by_cases hold : i < s.cut n r
    · exact ih hold hmono
    -- It is the element just taken.
    rw [cut] at hi hj
    rcases s.advance_cases (s.cut n) with ⟨-, h⟩ | ⟨m, hm, hlt, h, hmin⟩
    · rw [h] at hi
      exact absurd hi hold
    rw [h] at hi hj
    obtain rfl : r = m := by
      by_contra hne
      rw [update_of_ne hne] at hi
      exact hold hi
    rw [update_self] at hi
    obtain rfl : i = s.cut n r := by omega
    by_cases hrr : r' = r
    · subst hrr
      rw [update_self] at hj
      rcases (s.sorted r' hr' (s.cut n r') j (by omega) hj').lt_or_eq with h' | h'
      · exact .inl h'
      · exact .inr ⟨h', .inr ⟨rfl, by omega⟩⟩
    · have hhead := hmin r' hr' (hmono.trans_lt hj') hrr
      have hkey := s.sorted r' hr' _ j hmono hj'
      rcases hhead with h' | ⟨h', h''⟩
      · exact .inl (h'.trans_le hkey)
      · rcases hkey.lt_or_eq with hk | hk
        · exact .inl (h'.trans_lt hk)
        · exact .inr ⟨h'.trans hk, .inl (h''.resolve_right fun h => hrr h.1.symm)⟩

/-- What comes before an element of the merge is in the merge. -/
theorem lt_cut_of_before {n r i r' j : ℕ} (hr : r < s.numRuns) (hr' : r' < s.numRuns)
    (hi : i < s.cut n r) (hj : j < s.count r') (h : s.Before r' j r i) : j < s.cut n r' := by
  by_contra hle
  exact (before_of_cut hr hr' hi (not_lt.1 hle) hj).asymm h

theorem cut_total {r : ℕ} (hr : r < s.numRuns) : s.cut s.total r = s.count r := by
  by_contra hne
  have hlt : ∑ r ∈ range s.numRuns, s.cut s.total r < s.total := sum_lt_sum (fun r _ => cut_le_count _ r)
      ⟨r, mem_range.2 hr, lt_of_le_of_ne (cut_le_count _ r) hne⟩
  rw [sum_cut le_rfl] at hlt
  exact lt_irrefl _ hlt

theorem cut_le (n r : ℕ) : s.cut n r ≤ n := by
  induction n with
  | zero => exact le_rfl
  | succ n ih =>
    rw [cut]
    rcases s.advance_cases (s.cut n) with ⟨-, h⟩ | ⟨m, -, -, h, -⟩
    · rw [h]
      omega
    · rw [h]
      by_cases hrm : r = m
      · subst hrm
        rw [update_self]
        omega
      · rw [update_of_ne hrm]
        omega

/-- The smallest of the probed elements, `delta r` ahead of `b r`, is one of the first `n` elements, if all that are
    missing are in probed runs, and are more than the probes skip. -/
theorem probe_lt_cut {b delta : ℕ → ℕ} {active : Finset ℕ} {m : ℕ}
    (hact : ∀ r ∈ active, r < s.numRuns) (hm : m ∈ active)
    (hcnt : ∀ r ∈ active, b r + delta r ≤ s.count r)
    (hrst : ∀ r < s.numRuns, r ∉ active → s.cut n r ≤ b r)
    (hmin : ∀ r ∈ active, s.key m (b m + delta m - 1) < s.key r (b r + delta r - 1) ∨
      (s.key m (b m + delta m - 1) = s.key r (b r + delta r - 1) ∧ m ≤ r))
    (hskip : ∑ r ∈ active, (delta r - 1) < ∑ r ∈ range s.numRuns, (s.cut n r - b r)) :
    b m + delta m ≤ s.cut n m := by
  by_contra hlt
  -- No element probed is among the first `n`, as none comes before that of `m`.
  have hout : ∀ r ∈ active, s.cut n r ≤ b r + (delta r - 1) := by
    intro r hr
    by_contra hin
    rcases eq_or_ne r m with rfl | hne
    · omega
    have hbef : s.Before m (b m + delta m - 1) r (b r + delta r - 1) := by
      rcases hmin r hr with h | ⟨h, hle⟩
      · exact .inl h
      · exact .inr ⟨h, .inl (lt_of_le_of_ne hle hne.symm)⟩
    have hcountm := hcnt m hm
    have := lt_cut_of_before (n := n) (hact r hr) (hact m hm) (by omega) (by omega) hbef
    omega
  have hsum : ∑ r ∈ range s.numRuns, (s.cut n r - b r) ≤ ∑ r ∈ active, (delta r - 1) := by
    have hsub : active ⊆ range s.numRuns := fun r hr => mem_range.2 (hact r hr)
    rw [← sum_subset hsub fun r hr hr' => Nat.sub_eq_zero_of_le (hrst r (mem_range.1 hr) hr')]
    refine sum_le_sum fun r hr => ?_
    have := hout r hr
    omega
  omega

/-! ## The merged run -/

/-- The smallest of the first elements left is the one that is merged. -/
theorem advance_eq {c : ℕ → ℕ} {m : ℕ} (hm : m < s.numRuns) (hc : c m < s.count m)
    (hmin : ∀ r < s.numRuns, c r < s.count r → r ≠ m → s.Before m (c m) r (c r)) :
    s.advance c = Function.update c m (c m + 1) := by
  rcases s.advance_cases c with ⟨hnil, -⟩ | ⟨m', hm', hc', h, hmin'⟩
  · have hmem : m ∈ s.left c := by simpa [left] using ⟨hm, hc⟩
    rw [hnil] at hmem
    exact absurd hmem List.not_mem_nil
  · rcases eq_or_ne m' m with rfl | hne
    · exact h
    · exact absurd (hmin' m hm hc hne.symm) (hmin m' hm' hc' hne).asymm

/-- The elements of the merge are `out`, one by one. -/
def IsMerge (s : RunKeys κ) (out : ℕ → κ) : Prop := ∀ n < s.total, ∃ m < s.numRuns, s.cut n m < s.count m ∧
    s.cut (n + 1) = Function.update (s.cut n) m (s.cut n m + 1) ∧ out n = s.key m (s.cut n m)

/-- How many elements of a run are below `x`. -/
def below (s : RunKeys κ) (x : κ) (r : ℕ) : ℕ := Nat.count (fun i => s.key r i < x) (s.count r)

theorem IsMerge.mono {out : ℕ → κ} (h : s.IsMerge out) {i j : ℕ} (hij : i ≤ j)
    (hj : j < s.total) : out i ≤ out j := by
  rcases hij.eq_or_lt with rfl | hlt
  · exact le_rfl
  obtain ⟨m, hm, -, hcut, hi⟩ := h i (hlt.trans hj)
  obtain ⟨m', hm', hc', -, hj'⟩ := h j hj
  have htaken : s.cut i m < s.cut j m := by
    have hmono := cut_mono (s := s) (Nat.succ_le_of_lt hlt) m
    rw [Nat.succ_eq_add_one, hcut, update_self] at hmono
    omega
  rw [hi, hj']
  rcases before_of_cut hm hm' htaken le_rfl hc' with hkey | ⟨hkey, -⟩
  · exact hkey.le
  · exact hkey.le

/-- What is below `x` in a part of the merge is what is below `x` in the parts of the runs. -/
theorem IsMerge.count_eq {out : ℕ → κ} (h : s.IsMerge out) (x : κ) (hn : n ≤ s.total) :
    Nat.count (fun i => out i < x) n = ∑ r ∈ range s.numRuns, Nat.count (fun i => s.key r i < x) (s.cut n r) := by
  induction n with
  | zero => simp [cut]
  | succ n ih =>
    obtain ⟨m, hm, -, hcut, hout⟩ := h n hn
    have hoth : ∀ r ∈ (range s.numRuns).erase m, Nat.count (fun i => s.key r i < x) (s.cut (n + 1) r) =
          Nat.count (fun i => s.key r i < x) (s.cut n r) := by
      intro r hr
      rw [hcut, update_of_ne (ne_of_mem_erase hr)]
    rw [Nat.count_succ, ih (Nat.le_of_succ_le hn), ← sum_erase_add _ _ (mem_range.2 hm),
      ← sum_erase_add (range s.numRuns) _ (mem_range.2 hm), sum_congr rfl hoth, hcut,
      update_self, Nat.count_succ, hout]
    omega

theorem IsMerge.count_total {out : ℕ → κ} (h : s.IsMerge out) (x : κ) :
    Nat.count (fun i => out i < x) s.total = ∑ r ∈ range s.numRuns, s.below x r := by
  rw [h.count_eq x le_rfl]
  refine sum_congr rfl fun r hr => ?_
  rw [below, cut_total (mem_range.1 hr)]

/-- In a sorted run, the elements below `x` are the first ones. -/
theorem lt_count_iff {f : ℕ → κ} (hf : ∀ i j, i ≤ j → j < n → f i ≤ f j) (x : κ) {i : ℕ}
    (hi : i < n) : f i < x ↔ i < Nat.count (fun i => f i < x) n := by
  induction n with
  | zero => exact absurd hi (Nat.not_lt_zero i)
  | succ n ih =>
    rw [Nat.count_succ]
    split_ifs with hx
    · have hall : ∀ j < n, f j < x := fun j hj => (hf j n hj.le (Nat.lt_succ_self n)).trans_lt hx
      rw [Nat.count_iff_forall.2 hall]
      exact ⟨fun _ => hi, fun _ => (hf i n (by omega) (Nat.lt_succ_self n)).trans_lt hx⟩
    · rcases Nat.lt_succ_iff_lt_or_eq.1 hi with h | rfl
      · exact ih (fun i j hij hj => hf i j hij (by omega)) h
      · exact ⟨fun h => absurd h hx, fun h => absurd (Nat.count_le _) (not_le.2 h)⟩

theorem key_lt_iff_lt_below {r i : ℕ} (hr : r < s.numRuns) (hi : i < s.count r) (x : κ) :
    s.key r i < x ↔ i < s.below x r :=
  lt_count_iff (s.sorted r hr) x hi

theorem below_le_count (x : κ) (r : ℕ) : s.below x r ≤ s.count r := Nat.count_le _

/-- If an element is cut off in one run that is not below `x`, then no element below `x` is
    left in any. -/
theorem below_le_cut {n r : ℕ} {x : κ} (hr : r < s.numRuns) (h : s.below x r < s.cut n r) :
    ∀ r' < s.numRuns, s.below x r' ≤ s.cut n r' := by
  intro r' hr'
  by_contra hlt
  rw [not_le] at hlt
  have hcnt := hlt.trans_le (below_le_count x r')
  have hkey' := (key_lt_iff_lt_below hr' hcnt x).2 hlt
  have hkey : ¬s.key r (s.below x r) < x := by
    rw [key_lt_iff_lt_below hr (h.trans_le (cut_le_count n r)) x]
    exact lt_irrefl _
  rcases before_of_cut hr hr' h le_rfl hcnt with hb | ⟨hb, -⟩
  · exact hkey (hb.trans hkey')
  · exact hkey (hb ▸ hkey')

/-- The first elements of the merge, if no more than those below `x`, are below `x` in
    every run. -/
theorem cut_le_below {x : κ} (hn : n ≤ ∑ r ∈ range s.numRuns, s.below x r) {r : ℕ}
    (hr : r < s.numRuns) : s.cut n r ≤ s.below x r := by
  by_contra hlt
  rw [not_le] at hlt
  have htot : n ≤ s.total := hn.trans (sum_le_sum fun r _ => below_le_count x r)
  have hsum : ∑ r ∈ range s.numRuns, s.below x r < ∑ r ∈ range s.numRuns, s.cut n r :=
    sum_lt_sum (fun r' hr' => below_le_cut hr hlt r' (mem_range.1 hr')) ⟨r, mem_range.2 hr, hlt⟩
  rw [sum_cut htot] at hsum
  omega

/-- The first elements of the merge, if no less than those below `x`, have all elements
    below `x` in every run. -/
theorem below_le_cut_of_le {x : κ} (hn : ∑ r ∈ range s.numRuns, s.below x r ≤ n)
    (htot : n ≤ s.total) {r : ℕ} (hr : r < s.numRuns) : s.below x r ≤ s.cut n r := by
  by_contra hlt
  rw [not_le] at hlt
  -- Otherwise some run has an element cut off that is not below `x`.
  obtain ⟨r', hr', hlt'⟩ : ∃ r' < s.numRuns, s.below x r' < s.cut n r' := by
    by_contra hall
    push Not at hall
    have hsum : ∑ r ∈ range s.numRuns, s.cut n r < ∑ r ∈ range s.numRuns, s.below x r :=
      sum_lt_sum (fun r' hr' => hall r' (mem_range.1 hr')) ⟨r, mem_range.2 hr, hlt⟩
    rw [sum_cut htot] at hsum
    omega
  exact absurd (below_le_cut hr' hlt' r hr) (not_le.2 hlt)

end RunKeys

end WfOpt

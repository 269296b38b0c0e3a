import WfOpt.Window.Fill

/-!
# What fill() fills a row from

As usable sort values are adjacent in a partition, a scan that stops at the first one that is not usable still finds
the nearest usable row (`FillSearch.scanBackwards_eq`, `FillSearch.scanForwards_eq`). The row that is kept is the
last usable one before the next row, the first one behind it, or the last but one (`FillColumns.Kept`). The pair
found from it is always the right one.
-/

namespace WfOpt

open List Nat Option Function
open Bool (true_and eq_false_iff and_eq_true_iff)

namespace FillSearch

variable {f : FillSearch}

/-- A position that can be found. -/
def usable (f : FillSearch) (n : ℕ) : Bool := f.order n && f.value n

/-- Scanning backwards finds the last usable position before, if no usable sort value is before one that is not. -/
theorem scanBackwards_eq {own : ℕ} (h : ∀ a b, f.lo ≤ a → a ≤ b → b < own → f.order a = true → f.order b = true) :
    f.scanBackwards own = (marks f.usable f.lo own).reverse.head? := by
  induction own with
  | zero => rw [scanBackwards, marks_of_le (Nat.zero_le _)]; rfl
  | succ n ih =>
    have ih := ih fun a b ha hab hb => h a b ha hab (hb.trans (lt_succ_self n))
    rw [scanBackwards]
    split_ifs with hlo hord hval
    · have hmark : f.usable (n + 1 - 1) = true := by
        rw [Nat.add_sub_cancel, usable, hord, hval]
        rfl
      rw [marks_concat hlo hmark, reverse_append]
      rfl
    · rw [ih, marks_skip_last (le_of_lt_succ hlo)]
      rw [usable, hord, Bool.true_and]
      exact Bool.eq_false_iff.2 hval
    · rw [marks_eq_nil]
      · rfl
      intro a ha ha'
      rw [usable, Bool.and_eq_false_iff, Bool.eq_false_iff]
      exact .inl fun hone => hord (h a n ha (le_of_lt_succ ha') (lt_succ_self n) hone)
    · rw [marks_of_le (Nat.le_of_not_lt hlo)]
      rfl

theorem scanFrom_eq {left n : ℕ} (h : ∀ a b, n ≤ a → a ≤ b → b < n + left → f.order b = true → f.order a = true) :
    f.scanFrom left n = (marks f.usable n (n + left)).head? := by
  induction left generalizing n with
  | zero => rw [scanFrom, Nat.add_zero, marks_of_le le_rfl]; rfl
  | succ left ih =>
    have hlt : n < n + (left + 1) := Nat.lt_add_of_pos_right (succ_pos left)
    rw [scanFrom]
    split_ifs with hord hval
    · have hmark : f.usable n = true := by
        rw [usable, hord, hval]
        rfl
      rw [marks_cons hlt hmark]
      rfl
    · have hmark : f.usable n = false := by
        rw [usable, hord, Bool.true_and]
        exact Bool.eq_false_iff.2 hval
      rw [marks_skip hlt hmark, ih, Nat.add_right_comm, Nat.add_assoc]
      intro a b ha hab hb
      exact h a b (le_of_succ_le ha) hab (by omega)
    · rw [marks_eq_nil]
      · rfl
      intro a ha ha'
      rw [usable, Bool.and_eq_false_iff, Bool.eq_false_iff]
      exact .inl fun hone => hord (h n a le_rfl ha ha' hone)

/-- Scanning forwards finds the first usable position, if no usable sort value is behind one that is not. -/
theorem scanForwards_eq {n : ℕ} (h : ∀ a b, n ≤ a → a ≤ b → b < f.stop → f.order b = true → f.order a = true) :
    f.scanForwards n = (marks f.usable n f.stop).head? := by
  rw [scanForwards]
  rcases Nat.le_total n f.stop with hle | hge
  · rw [scanFrom_eq, Nat.add_sub_cancel' hle]
    rwa [Nat.add_sub_cancel' hle]
  · rw [Nat.sub_eq_zero_of_le hge, marks_of_le hge]
    rfl

end FillSearch

namespace FillColumns

variable {V K : Type*} {T : FillColumns V K}

/-! ## Rows of a partition -/

/-- A row is in the partition of another one. -/
def InPartition (T : FillColumns V K) (r s : ℕ) : Prop :=
  (T.bounds r).partitionBegin ≤ s ∧ s < (T.bounds r).partitionEnd

variable {r s : ℕ}

theorem order_isSome (h : T.order s = true) : (T.orderCell s).isSome = true := by
  rw [order, fillValueFunction] at h
  cases hcell : T.orderCell s with
  | none => rw [hcell] at h; exact h
  | some v => rfl

theorem usable_order (h : T.usable s = true) : T.order s = true := (and_eq_true_iff.1 h).1

section

variable (hr : r < T.count)

include hr

theorem inPartition_self : T.InPartition r r := ⟨T.partitionBegin_le r hr, T.lt_partitionEnd r hr⟩

theorem InPartition.bounds_eq (h : T.InPartition r s) : T.bounds s = T.bounds r :=
  T.bounds_eq r hr s h.1 h.2

theorem InPartition.lt_count (h : T.InPartition r s) : s < T.count :=
  h.2.trans_le (T.partitionEnd_le r hr)

/-- Rows whose partitions begin at the same row are in one partition. -/
theorem inPartition_of_begin_eq (hs : s < T.count) (hle : r ≤ s)
    (h : (T.bounds s).partitionBegin = (T.bounds r).partitionBegin) : T.InPartition r s := by
  have hmem : T.InPartition s r := ⟨h ▸ T.partitionBegin_le r hr, hle.trans_lt (T.lt_partitionEnd s hs)⟩
  rw [InPartition, hmem.bounds_eq hs]
  exact inPartition_self hs

/-- A row with a usable sort value is in the valid range. -/
theorem InPartition.valid (h : T.InPartition r s) (hord : T.order s = true) :
    (T.bounds r).validBegin ≤ s ∧ s < (T.bounds r).validEnd :=
  (T.valid_iff r hr s).2 ⟨h, order_isSome hord⟩

/-- The usable rows of a partition before a row are those of the valid range. -/
theorem InPartition.marks_before (h : T.InPartition r s) (hs : T.order s = true) :
    marks T.usable (T.bounds r).validBegin s = marks T.usable (T.bounds r).partitionBegin s := by
  obtain ⟨hbeg, hend⟩ := h.valid hr hs
  have hle : (T.bounds r).partitionBegin ≤ (T.bounds r).validBegin :=
    ((T.valid_iff r hr _).1 ⟨le_rfl, hbeg.trans_lt hend⟩).1.1
  have hno : marks T.usable (T.bounds r).partitionBegin (T.bounds r).validBegin = [] := by
    refine marks_eq_nil fun i hi hi' => eq_false_iff.2 fun hus => ?_
    have hin : T.InPartition r i := ⟨hi, (hi'.trans_le hbeg).trans h.2⟩
    exact Nat.not_le.2 hi' (hin.valid hr (usable_order hus)).1
  rw [marks_append hle hbeg, hno, nil_append]

theorem InPartition.marks_behind (h : T.InPartition r s) (hs : T.order s = true) :
    marks T.usable (s + 1) (T.bounds r).validEnd = marks T.usable (s + 1) (T.bounds r).partitionEnd := by
  obtain ⟨hbeg, hend⟩ := h.valid hr hs
  have hle : (T.bounds r).validEnd ≤ (T.bounds r).partitionEnd := by
    have hlst := ((T.valid_iff r hr ((T.bounds r).validEnd - 1)).1 (by omega)).1.2
    omega
  have hno : marks T.usable (T.bounds r).validEnd (T.bounds r).partitionEnd = [] := by
    refine marks_eq_nil fun i hi hi' => eq_false_iff.2 fun hus => ?_
    have hin : T.InPartition r i := ⟨(h.1.trans hend.le).trans hi, hi'⟩
    exact Nat.not_lt.2 hi (hin.valid hr (usable_order hus)).2
  rw [marks_append hend hle, hno, append_nil]

end

variable {chunk : T.Chunk} {i s : ℕ}

theorem Chunk.row_lt (hi : i < chunk.count) : chunk.rowIdx + i < T.count :=
  (Nat.add_lt_add_left hi _).trans_le chunk.le_count

section

variable (hi : i < chunk.count) (hs : T.InPartition (chunk.rowIdx + i) s) (hord : T.order s = true)

include hi hs hord

theorem Chunk.scanBackwards_eq : (chunk.partitionSearch i).scanBackwards s =
      (marks T.usable (T.bounds (chunk.rowIdx + i)).partitionBegin s).reverse.head? := by
  have hr := chunk.row_lt hi
  have hbds := chunk.bounds_eq i hi
  rw [← hs.marks_before hr hord, FillSearch.scanBackwards_eq]
  · rw [partitionSearch, hbds]
    rfl
  · intro a b ha hab hb hordera
    rw [partitionSearch, hbds] at ha
    have hin : T.InPartition (chunk.rowIdx + i) a := by
      refine ((T.valid_iff _ hr a).1 ⟨ha, ?_⟩).1
      exact (hab.trans_lt hb).trans (hs.valid hr hord).2
    exact T.order_between _ hr a b s hin.1 hab hb.le hs.2 hordera hord

theorem Chunk.scanForwards_eq : (chunk.partitionSearch i).scanForwards (s + 1) =
      (marks T.usable (s + 1) (T.bounds (chunk.rowIdx + i)).partitionEnd).head? := by
  have hr := chunk.row_lt hi
  have hbds := chunk.bounds_eq i hi
  rw [← hs.marks_behind hr hord, FillSearch.scanForwards_eq]
  · rw [partitionSearch, hbds]
    rfl
  · intro a b ha hab hb horderb
    rw [partitionSearch, hbds] at hb
    have hin : T.InPartition (chunk.rowIdx + i) b := by
      refine ((T.valid_iff _ hr b).1 ⟨?_, hb⟩).1
      exact (hs.valid hr hord).1.trans ((le_succ s).trans (ha.trans hab))
    exact T.order_between _ hr s a b hs.1 (le_of_succ_le ha) hab hin.2 hord horderb

end

/-! ## The row that is kept -/

/-- The usable rows of the partition before a row, the last one first. -/
def before (T : FillColumns V K) (r : ℕ) : List ℕ := (marks T.usable (T.bounds r).partitionBegin r).reverse

/-- Those from a row on. -/
def behind (T : FillColumns V K) (r : ℕ) : List ℕ := marks T.usable r (T.bounds r).partitionEnd

/-- What is kept for the next row: the last usable row before, or the first one behind, or the last but one. -/
inductive Kept (T : FillColumns V K) (r p : ℕ) : Prop
  | before (rest : List ℕ) (h : T.before r = p :: rest)
  | behind (rest : List ℕ) (h : T.before r = []) (h' : T.behind r = p :: rest)
  | lastButOne (last : ℕ) (rest : List ℕ) (h : T.before r = last :: p :: rest) (h' : T.behind r = [])

/-- The pair of rows that is found. -/
def found (T : FillColumns V K) (p : ℕ × Option ℕ) : Filled V := match p.2 with
  | none => .cell (T.cell p.1)
  | some next => .interpolated p.1 next

theorem pair_of_next {f : FillSearch} {prev next : ℕ} (h : f.scanForwards (prev + 1) = some next) :
    f.pair prev = (prev, some next) := by rw [FillSearch.pair, h]

theorem pair_of_before {f : FillSearch} {prev next : ℕ} (h : f.scanForwards (prev + 1) = none)
    (h' : f.scanBackwards prev = some next) : f.pair prev = (next, some prev) := by rw [FillSearch.pair, h, h']

theorem pair_of_single {f : FillSearch} {prev : ℕ} (h : f.scanForwards (prev + 1) = none)
    (h' : f.scanBackwards prev = none) : f.pair prev = (prev, none) := by rw [FillSearch.pair, h, h']

theorem Kept.pair (hi : i < chunk.count) {p : ℕ} (h : T.Kept (chunk.rowIdx + i) p) :
    T.found ((chunk.partitionSearch i).pair p) =
        T.fillFrom (T.before (chunk.rowIdx + i)) (T.behind (chunk.rowIdx + i)) ∧
      T.Kept (chunk.rowIdx + i) ((chunk.partitionSearch i).pair p).1 := by
  have hin := inPartition_self (chunk.row_lt hi)
  cases h with
  | before rest h =>
    obtain ⟨⟨hbeg, hlt, hus⟩, hno, hrst⟩ := marks_of_last h
    have hp : T.InPartition (chunk.rowIdx + i) p := ⟨hbeg, hlt.trans hin.2⟩
    have hfwd := chunk.scanForwards_eq hi hp (usable_order hus)
    rw [marks_append hlt hin.2.le, hno, nil_append, ← FillColumns.behind] at hfwd
    have hback := chunk.scanBackwards_eq hi hp (usable_order hus)
    rw [hrst] at hback
    cases hbhd : T.behind (chunk.rowIdx + i) with
    | cons hi rest' =>
      rw [hbhd] at hfwd
      rw [pair_of_next hfwd, h]
      exact ⟨rfl, .before rest h⟩
    | nil =>
      rw [hbhd] at hfwd
      cases rest with
      | cons lo rest' =>
        rw [pair_of_before hfwd hback, h]
        exact ⟨rfl, .lastButOne p rest' h hbhd⟩
      | nil =>
        rw [pair_of_single hfwd hback, h]
        exact ⟨rfl, .before [] h⟩
  | behind rest h h' =>
    obtain ⟨⟨hbeg, hlt, hus⟩, hno, hrst⟩ := marks_of_head h'
    have hp : T.InPartition (chunk.rowIdx + i) p := ⟨hin.1.trans hbeg, hlt⟩
    have hfwd := chunk.scanForwards_eq hi hp (usable_order hus)
    rw [hrst] at hfwd
    have hback := chunk.scanBackwards_eq hi hp (usable_order hus)
    rw [marks_append hin.1 hbeg, hno, append_nil, ← FillColumns.before, h] at hback
    cases rest with
    | cons hi rest' =>
      rw [pair_of_next hfwd, h, h']
      exact ⟨rfl, .behind _ h h'⟩
    | nil =>
      rw [pair_of_single hfwd hback, h, h']
      exact ⟨rfl, .behind _ h h'⟩
  | lastButOne last rest h h' =>
    obtain ⟨⟨hbeg, hlt, hus⟩, hno, hrst⟩ := marks_of_last h
    obtain ⟨⟨hbeg', hlt', hus'⟩, hno', _⟩ := marks_of_last hrst
    have hp : T.InPartition (chunk.rowIdx + i) p := ⟨hbeg', (hlt'.trans hlt).trans hin.2⟩
    have hfwd := chunk.scanForwards_eq hi hp (usable_order hus')
    rw [marks_split hlt' (hlt.trans hin.2) hus, hno', nil_append] at hfwd
    rw [pair_of_next hfwd, h, h']
    exact ⟨rfl, .lastButOne last rest h h'⟩

theorem before_succ (hr : r < T.count) (hbds : T.bounds (r + 1) = T.bounds r) :
    T.before (r + 1) = if T.usable r then r :: T.before r else T.before r := by
  have hle : (T.bounds r).partitionBegin ≤ r := (inPartition_self hr).1
  rw [before, before, hbds]
  split_ifs with hus
  · have hlt : (T.bounds r).partitionBegin < r + 1 := lt_succ_of_le hle
    have hmark : T.usable (r + 1 - 1) = true := hus
    rw [marks_concat hlt hmark, reverse_append]
    rfl
  · rw [marks_skip_last hle (eq_false_iff.2 hus)]

theorem behind_of_not_usable (hr : r < T.count) (hus : T.usable r = false) :
    T.behind r = marks T.usable (r + 1) (T.bounds r).partitionEnd :=
  marks_skip (inPartition_self hr).2 hus

/-- A row that is kept can be kept for the next row, if the row itself is not usable. -/
theorem Kept.succ {r p : ℕ} (h : T.Kept r p) (hr : r < T.count) (hbds : T.bounds (r + 1) = T.bounds r)
    (hus : T.usable r = false) : T.Kept (r + 1) p := by
  have hbef : T.before (r + 1) = T.before r := by
    rw [before_succ hr hbds, if_neg (eq_false_iff.1 hus)]
  have hbhd : T.behind (r + 1) = T.behind r := by
    rw [behind_of_not_usable hr hus, FillColumns.behind, hbds]
  cases h with
  | before rest h => exact .before rest (hbef.trans h)
  | behind rest h h' => exact .behind rest (hbef.trans h) (hbhd.trans h')
  | lastButOne last rest h h' => exact .lastButOne last rest (hbef.trans h) (hbhd.trans h')

theorem kept_of_usable (hr : r < T.count) (hbds : T.bounds (r + 1) = T.bounds r)
    (hus : T.usable r = true) : T.Kept (r + 1) r :=
  .before (T.before r) (by rw [before_succ hr hbds, if_pos hus])

/-- The search looks for the last usable row before, and then for the first one behind. -/
theorem previous_eq (hi : i < chunk.count) (hord : T.order (chunk.rowIdx + i) = true)
    (hus : T.usable (chunk.rowIdx + i) = false) :
    (chunk.partitionSearch i).previous (chunk.rowIdx + i) =
      (T.before (chunk.rowIdx + i)).head?.or (T.behind (chunk.rowIdx + i)).head? := by
  have hr := chunk.row_lt hi
  rw [FillSearch.previous, chunk.scanBackwards_eq hi (inPartition_self hr) hord,
    chunk.scanForwards_eq hi (inPartition_self hr) hord, behind_of_not_usable hr hus]
  rfl

theorem kept_of_head {r p : ℕ} (h : (T.before r).head?.or (T.behind r).head? = some p) : T.Kept r p := by
  cases hbef : T.before r with
  | cons q rest =>
    rw [hbef] at h
    obtain rfl : q = p := some.inj h
    exact .before rest hbef
  | nil =>
    cases hbhd : T.behind r with
    | cons q rest =>
      rw [hbef, hbhd] at h
      obtain rfl : q = p := some.inj h
      exact .behind rest hbef hbhd
    | nil =>
      rw [hbef, hbhd] at h
      exact nomatch h

theorem nil_of_head (h : (T.before r).head?.or (T.behind r).head? = none) : T.before r = [] ∧ T.behind r = [] := by
  rw [or_eq_none_iff, head?_eq_none_iff, head?_eq_none_iff] at h
  exact h

/-! ## The right result -/

/-- A row that is missing, although it has a usable sort value. -/
def lacks (T : FillColumns V K) (r : ℕ) : Bool := (T.cell r).isNone && T.order r

theorem usable_of_lacks (h : T.lacks r = true) : T.usable r = false := by
  obtain ⟨hcell, _⟩ := and_eq_true_iff.1 h
  rw [usable, value, fillValueFunction, isNone_iff_eq_none.1 hcell]
  exact Bool.and_false _

theorem expected_of_lacks (hr : r < T.count) (h : T.lacks r = true) :
    T.expected r = T.fillFrom (T.before r) (T.behind r) := by
  rw [expected, ← lacks, if_pos h, behind_of_not_usable hr (usable_of_lacks h)]
  rfl

theorem expected_of_not_lacks (h : T.lacks r = false) : T.expected r = .cell (T.cell r) := by
  rw [expected, ← lacks, if_neg (eq_false_iff.1 h)]

/-- There is a usable row in the partition before a row or from it on, or there is none. -/
theorem nil_iff (hr : r < T.count) :
    T.before r = [] ∧ T.behind r = [] ↔ ∀ s, T.InPartition r s → T.usable s = false := by
  have hin := inPartition_self hr
  refine ⟨fun h s hs => eq_false_iff.2 fun htrue => ?_, fun h => ⟨?_, ?_⟩⟩
  · have hno : marks T.usable (T.bounds r).partitionBegin (T.bounds r).partitionEnd = [] := by
      rw [marks_append hin.1 hin.2.le, reverse_eq_nil_iff.1 h.1, nil_append]
      exact h.2
    exact not_mem_nil (hno ▸ mem_marks.2 ⟨hs.1, hs.2, htrue⟩)
  · exact reverse_eq_nil_iff.2 (marks_eq_nil fun i hi hi' => h i ⟨hi, hi'.trans hin.2⟩)
  · exact marks_eq_nil fun i hi hi' => h i ⟨hin.1.trans hi, hi'⟩

/-- Without a usable row in the partition, every row of it stays as it is. -/
theorem expected_of_none (hr : r < T.count) (hs : T.InPartition r s)
    (h : T.before r = [] ∧ T.behind r = []) : T.expected s = .cell (T.cell s) := by
  cases hlacks : T.lacks s with
  | false => exact expected_of_not_lacks hlacks
  | true =>
    have hno : T.before s = [] ∧ T.behind s = [] := by
      refine (nil_iff (hs.lt_count hr)).2 fun i hi => (nil_iff hr).1 h i ?_
      rwa [InPartition, hs.bounds_eq hr] at hi
    have hcell : T.cell s = none := isNone_iff_eq_none.1 (and_eq_true_iff.1 hlacks).1
    rw [expected_of_lacks (hs.lt_count hr) hlacks, hno.1, hno.2, hcell]
    rfl

/-! ## The loop -/

namespace Chunk

/-- The rows so far are right, the others copied, and a kept row belongs to the current partition. -/
structure FillInv (chunk : T.Chunk) (s : Filling V) : Prop where
  rowIdx_eq : s.i < chunk.count → s.rowIdx = chunk.rowIdx + s.i
  done : ∀ j < chunk.count, j < s.i → s.result j = T.expected (chunk.rowIdx + j)
  copied : ∀ j < chunk.count, s.i ≤ j → s.result j = .cell (T.cell (chunk.rowIdx + j))
  kept : s.i < chunk.count → ∀ p, s.prevValid = some p →
    s.prevPartition = some (T.bounds (chunk.rowIdx + s.i)).partitionBegin → T.Kept (chunk.rowIdx + s.i) p

variable {s : Filling V}

/-- A step that goes on with the next row, and may keep a row. -/
theorem FillInv.next (h : chunk.FillInv s) (hi : s.i < chunk.count) {t : Filling V} (hrow : t.rowIdx = s.rowIdx)
    (hidx : t.i = s.i) (hres : ∀ j, j ≠ s.i → t.result j = s.result j)
    (hrt : t.result s.i = T.expected (chunk.rowIdx + s.i))
    (hpart : t.prevPartition = some (T.bounds (chunk.rowIdx + s.i)).partitionBegin)
    (hkept : ∀ p, t.prevValid = some p → chunk.rowIdx + s.i + 1 < T.count →
      T.bounds (chunk.rowIdx + s.i + 1) = T.bounds (chunk.rowIdx + s.i) → T.Kept (chunk.rowIdx + s.i + 1) p) :
    chunk.FillInv (FillColumns.Chunk.next t) := by
  have heq := h.rowIdx_eq hi
  refine ⟨fun _ => ?_, fun j hj hlt => ?_, fun j hj hle => ?_, fun hlt p hp hbeg => ?_⟩
  · change t.rowIdx + 1 = chunk.rowIdx + (t.i + 1)
    omega
  · have hlt' : j < s.i + 1 := hidx ▸ hlt
    rcases Nat.lt_or_eq_of_le (le_of_lt_succ hlt') with hlt | rfl
    · exact (hres j hlt.ne).trans (h.done j hj hlt)
    · exact hrt
  · have hle' : s.i + 1 ≤ j := hidx ▸ hle
    exact (hres j (by omega)).trans (h.copied j hj (le_of_succ_le hle'))
  · have hlt' : s.i + 1 < chunk.count := hidx ▸ hlt
    have hnx : chunk.rowIdx + (FillColumns.Chunk.next t).i = chunk.rowIdx + s.i + 1 := by
      change chunk.rowIdx + (t.i + 1) = _
      rw [hidx]
      rfl
    have hr := chunk.row_lt hi
    have hr' : chunk.rowIdx + s.i + 1 < T.count := chunk.row_lt hlt'
    rw [hnx] at hbeg ⊢
    have hsm : (T.bounds (chunk.rowIdx + s.i + 1)).partitionBegin =
        (T.bounds (chunk.rowIdx + s.i)).partitionBegin := some.inj (hbeg.symm.trans hpart)
    exact hkept p hp hr' ((inPartition_of_begin_eq hr hr' (le_succ _) hsm).bounds_eq hr)

/-- Entering a partition forgets the row that has been kept in the one before. -/
theorem FillInv.enter (h : chunk.FillInv s) (hi : s.i < chunk.count) :
    chunk.FillInv (chunk.enter s) ∧ (chunk.enter s).i = s.i ∧ (chunk.enter s).rowIdx = s.rowIdx ∧
      (chunk.enter s).prevPartition = some (T.bounds (chunk.rowIdx + s.i)).partitionBegin := by
  rw [FillColumns.Chunk.enter, chunk.bounds_eq _ hi]
  split_ifs with hsm
  · exact ⟨⟨h.rowIdx_eq, h.done, h.copied, h.kept⟩, rfl, rfl, hsm⟩
  · exact ⟨⟨h.rowIdx_eq, h.done, h.copied, fun _ _ hp => nomatch hp⟩, rfl, rfl, rfl⟩

/-- A skip goes to the last row of the partition, which need not be one of the chunk. -/
theorem skip_spec (hi : s.i < chunk.count) (heq : s.rowIdx = chunk.rowIdx + s.i) :
    ∃ i, s.i ≤ i ∧ chunk.rowIdx + i + 1 = (T.bounds (chunk.rowIdx + s.i)).partitionEnd ∧
      (chunk.skip s).i = i + 1 ∧ (chunk.skip s).reads = s.reads ++ [i] ∧
      (i + 1 < chunk.count → (chunk.skip s).rowIdx = chunk.rowIdx + (i + 1)) := by
  have hr := chunk.row_lt hi
  have hlst := (inPartition_self hr).2
  have hbeg := (inPartition_self hr).1
  obtain ⟨i, hskip⟩ : ∃ i, s.i + ((chunk.bounds s.i).partitionEnd - s.rowIdx - 1) = i := ⟨_, rfl⟩
  have hend : chunk.rowIdx + i + 1 = (T.bounds (chunk.rowIdx + s.i)).partitionEnd := by
    rw [chunk.bounds_eq _ hi, heq] at hskip
    omega
  rw [FillColumns.Chunk.skip, hskip]
  refine ⟨i, by omega, hend, rfl, rfl, fun hlt => ?_⟩
  change (chunk.bounds i).partitionEnd - 1 + 1 = chunk.rowIdx + (i + 1)
  have hin : T.InPartition (chunk.rowIdx + s.i) (chunk.rowIdx + i) := ⟨by omega, by omega⟩
  rw [chunk.bounds_eq i (lt_of_succ_lt hlt), hin.bounds_eq hr, ← hend]
  omega

section

variable (h : chunk.FillInv s) (hi : s.i < chunk.count)

include h hi

/-- If nothing is found, the rows that are skipped stay as they are. -/
theorem FillInv.skip (hprev : s.prevValid = none)
    (hno : T.before (chunk.rowIdx + s.i) = [] ∧ T.behind (chunk.rowIdx + s.i) = []) :
    chunk.FillInv (chunk.skip s) ∧ s.i < (chunk.skip s).i := by
  have hr := chunk.row_lt hi
  have hbeg := (inPartition_self hr).1
  obtain ⟨i, hle, hend, hidx, -, hrow⟩ := skip_spec hi (h.rowIdx_eq hi)
  refine ⟨⟨fun hlt => ?_, fun j hj hlt => ?_, fun j hj hge => ?_, fun _ p hp => ?_⟩, ?_⟩
  · rw [hidx] at hlt ⊢
    exact hrow hlt
  · rcases Nat.lt_or_ge j s.i with hdone | hge
    · exact h.done j hj hdone
    · rw [expected_of_none hr ⟨by omega, by omega⟩ hno]
      exact h.copied j hj hge
  · exact h.copied j hj (by omega)
  · exact absurd (hprev.symm.trans hp) (by simp)
  · omega

section

variable (hlacks : T.lacks (chunk.rowIdx + s.i) = true)
  (hpart : s.prevPartition = some (T.bounds (chunk.rowIdx + s.i)).partitionBegin)

include hlacks hpart

theorem FillInv.fillMissing_cases :
    (s.prevValid = none ∧ (T.before (chunk.rowIdx + s.i) = [] ∧ T.behind (chunk.rowIdx + s.i) = []) ∧
        chunk.fillMissing s = chunk.skip s) ∨
      ∃ prev, T.Kept (chunk.rowIdx + s.i) prev ∧ chunk.fillMissing s = FillColumns.Chunk.next
        { T.write s ((chunk.partitionSearch s.i).pair prev).1 ((chunk.partitionSearch s.i).pair prev).2 with
          prevValid := some ((chunk.partitionSearch s.i).pair prev).1 } := by
  rw [FillColumns.Chunk.fillMissing, h.rowIdx_eq hi,
    previous_eq hi (and_eq_true_iff.1 hlacks).2 (usable_of_lacks hlacks)]
  cases hprev : s.prevValid with
  | none =>
    cases hfnd : (T.before (chunk.rowIdx + s.i)).head?.or (T.behind (chunk.rowIdx + s.i)).head? with
    | none => exact .inl ⟨rfl, nil_of_head hfnd, rfl⟩
    | some prev => exact .inr ⟨prev, kept_of_head hfnd, rfl⟩
  | some prev => exact .inr ⟨prev, h.kept hi prev hprev hpart, rfl⟩

theorem FillInv.fillMissing :
    chunk.FillInv (chunk.fillMissing s) ∧ s.i < (chunk.fillMissing s).i := by
  have hr := chunk.row_lt hi
  rcases h.fillMissing_cases hi hlacks hpart with ⟨hprev, hno, heq⟩ | ⟨prev, hkept, heq⟩
  · rw [heq]
    exact h.skip hi hprev hno
  · obtain ⟨hpair, hkept⟩ := hkept.pair hi
    rw [heq]
    refine ⟨h.next hi rfl rfl (fun j hj => update_of_ne hj _ _) ?_ hpart ?_, lt_succ_self _⟩
    · rw [expected_of_lacks hr hlacks, ← hpair]
      exact update_self _ _ _
    · intro p hp _ hbds
      exact some.inj hp ▸ hkept.succ hr hbds (usable_of_lacks hlacks)

end

theorem FillInv.fillRow_cases :
    (T.lacks (chunk.rowIdx + s.i) = false ∧ chunk.fillRow s = FillColumns.Chunk.next { chunk.enter s with
      prevValid := if T.usable (chunk.rowIdx + s.i) then some (chunk.rowIdx + s.i)
        else (chunk.enter s).prevValid }) ∨
      (T.lacks (chunk.rowIdx + s.i) = true ∧ chunk.fillRow s = chunk.fillMissing (chunk.enter s)) := by
  obtain ⟨-, hidx, hrow, -⟩ := h.enter hi
  have hr := chunk.row_lt hi
  rw [FillColumns.Chunk.fillRow]
  generalize chunk.enter s = t at *
  obtain ⟨i, rowIdx, prevValid, prevPartition, result, reads⟩ := t
  dsimp only at hidx hrow ⊢
  obtain rfl := hrow.trans (h.rowIdx_eq hi)
  rw [hidx, chunk.bounds_eq _ hi, chunk.validity_eq _ hi]
  cases hord : T.order (chunk.rowIdx + s.i) with
  | false =>
    rw [if_pos (.inr (.inr rfl)), lacks, usable, hord]
    exact .inl ⟨Bool.and_false _, rfl⟩
  | true =>
    obtain ⟨hbeg, hend⟩ := (inPartition_self hr).valid hr hord
    rw [if_neg (by simp [hbeg, hend]), lacks, usable, hord, Bool.and_true, Bool.true_and]
    cases hcell : T.cell (chunk.rowIdx + s.i) with
    | none => exact .inr ⟨rfl, rfl⟩
    | some v => exact .inl ⟨rfl, rfl⟩

theorem FillInv.fillRow :
    chunk.FillInv (chunk.fillRow s) ∧ s.i < (chunk.fillRow s).i := by
  obtain ⟨hinv, hidx, -, hpart⟩ := h.enter hi
  have hr := chunk.row_lt hi
  rcases h.fillRow_cases hi with ⟨hlacks, heq⟩ | ⟨hlacks, heq⟩
  · rw [heq]
    rw [← hidx] at hi hr hpart hlacks ⊢
    refine ⟨hinv.next hi rfl rfl (fun _ _ => rfl) ?_ hpart fun p hp _ hbds => ?_, lt_succ_self _⟩
    · rw [expected_of_not_lacks hlacks]
      exact hinv.copied _ hi le_rfl
    · split_ifs at hp with hus
      · obtain rfl := some.inj hp
        exact kept_of_usable hr hbds hus
      · exact (hinv.kept hi p hp hpart).succ hr hbds (eq_false_iff.2 hus)
  · rw [heq]
    rw [← hidx] at hi hpart hlacks ⊢
    exact hinv.fillMissing hi hlacks hpart

end

/-- The loop comes to the end of the chunk, if each step goes on to a later row. -/
theorem loop_spec {step : Filling V → Filling V} {Inv : Filling V → Prop}
    (hstep : ∀ s, Inv s → s.i < chunk.count → Inv (step s) ∧ s.i < (step s).i) {fuel : ℕ} {s : Filling V}
    (h : Inv s) (hfuel : chunk.count ≤ s.i + fuel) :
    Inv (chunk.loop step fuel s) ∧ chunk.count ≤ (chunk.loop step fuel s).i := by
  induction fuel generalizing s with
  | zero => exact ⟨h, hfuel⟩
  | succ fuel ih =>
    rw [loop]
    split_ifs with hlt
    · obtain ⟨hnx, hi⟩ := hstep s h hlt
      exact ih hnx (by omega)
    · exact ⟨h, Nat.le_of_not_lt hlt⟩

/-- The values are copied, whichever chunks of the source they are in. -/
theorem windowFillCopy_eq {count fuel rowIdx targetOffset : ℕ} {result : ℕ → Filled V}
    (hfuel : count ≤ targetOffset + fuel) (hrs : rowIdx + (count - targetOffset) ≤ T.count) {j : ℕ}
    (hj : j < count) : T.windowFillCopy count fuel rowIdx targetOffset result j =
      if j < targetOffset then result j else .cell (T.cell (rowIdx + (j - targetOffset))) := by
  induction fuel generalizing rowIdx targetOffset result with
  | zero => exact (if_pos (hj.trans_le hfuel)).symm
  | succ fuel ih =>
    rw [windowFillCopy]
    rcases Nat.lt_or_ge targetOffset count with hlt | hge
    · have hrow : rowIdx < T.chunks.flatten.length := by
        have hle : rowIdx + (count - targetOffset) ≤ T.chunks.flatten.length := hrs
        omega
      obtain ⟨hoff, hcells⟩ := LeadLag.seek_spec hrow
      rw [if_pos hlt]
      generalize seek T.chunks rowIdx = source at *
      obtain ⟨copied, hcop⟩ : ∃ copied, min (source.1.length - source.2) (count - targetOffset) = copied := ⟨_, rfl⟩
      rw [hcop, ih (by omega) (by omega)]
      rcases Nat.lt_or_ge j targetOffset with hbef | hafter
      · rw [if_pos (by omega), if_neg (by omega), if_pos hbef]
      · rw [if_neg (Nat.not_lt.2 hafter)]
        rcases Nat.lt_or_ge j (targetOffset + copied) with hnow | hlater
        · rw [if_pos hnow, if_pos ⟨hafter, hnow⟩, cell, getD_eq_getElem?_getD, getD_eq_getElem?_getD,
            hcells _ (by omega)]
        · have hidx : rowIdx + copied + (j - (targetOffset + copied)) = rowIdx + (j - targetOffset) := by omega
          rw [if_neg (Nat.not_lt.2 hlater), hidx]
    · rw [if_neg (Nat.not_lt.2 hge), if_pos (hj.trans_le hge)]

theorem start_result (result : ℕ → Filled V) {j : ℕ} (hj : j < chunk.count) :
    (chunk.start result).result j = .cell (T.cell (chunk.rowIdx + j)) := by
  rw [start]
  dsimp only
  rw [windowFillCopy_eq (Nat.le_add_left _ _) chunk.le_count hj, if_neg (Nat.not_lt_zero j), Nat.sub_zero]

/-- A chunk without missing values has nothing to fill. -/
theorem cell_of_allValid (hall : chunk.validity.validityMask.isNone = true) {i : ℕ} (hi : i < chunk.count) :
    (T.cell (chunk.rowIdx + i)).isSome = true := by
  rw [← chunk.validity_eq i hi, ValidityMask.rowIsValid, ValidityMask.getValidityEntry, isNone_iff_eq_none.1 hall]
  exact (BitVec.getLsbD_allOnes ..).trans (decide_eq_true (mod_lt i (by decide)))

theorem FillInv.start (chunk : T.Chunk) (result : ℕ → Filled V) : chunk.FillInv (chunk.start result) where
  rowIdx_eq _ := rfl
  done _ _ hlt := absurd hlt (Nat.not_lt_zero _)
  copied _ hj _ := start_result result hj
  kept _ _ hp := nomatch hp

/-- Each row of a chunk is filled from the nearest usable rows of its partition. -/
theorem fills_from_nearest (chunk : T.Chunk) (result : ℕ → Filled V) {i : ℕ} (hi : i < chunk.count) :
    (chunk.evaluateInternal none result).result i = T.expected (chunk.rowIdx + i) := by
  rw [evaluateInternal]
  split_ifs with hall
  · rw [start_result result hi, expected_of_not_lacks]
    rw [lacks, ← not_isSome, cell_of_allValid hall hi]
    rfl
  · obtain ⟨hinv, hend⟩ := loop_spec (fun s hs hlt => hs.fillRow hlt) (FillInv.start chunk result)
      (Nat.le_add_left _ _)
    exact hinv.done i hi (hi.trans_le hend)

end Chunk

/-- Five rows of a partition, of which two have a value. -/
def fiveCells : FillColumns ℕ ℕ where
  chunks := [[none, some 10, none], [some 40, none]]
  valueFinite _ := true
  orderCell := some
  orderFinite _ := true
  bounds _ := ⟨0, 5, 0, 5⟩
  partitionBegin_le r _ := Nat.zero_le r
  lt_partitionEnd _ hr := hr
  partitionEnd_le _ _ := by decide
  bounds_eq _ _ _ _ _ := rfl
  valid_iff _ _ s := (and_iff_left (rfl : (some s).isSome = true)).symm
  order_between _ _ _ _ _ _ _ _ _ _ _ := rfl

/-- The chunk of the last three rows. -/
def lastThree : fiveCells.Chunk where
  rowIdx := 2
  count := 3
  bounds _ := ⟨0, 5, 0, 5⟩
  validity := ⟨some fun _ => 0b010⟩
  le_count := by decide
  bounds_eq _ _ := rfl
  validity_eq := by decide

theorem fills_from_nearest_lastThree :
    (lastThree.evaluateInternal none fun _ => .cell none).result 0 = fiveCells.expected 2 ∧
      fiveCells.expected 2 = .interpolated 1 3 ∧
      (lastThree.evaluateInternal none fun _ => .cell none).result 2 = fiveCells.expected 4 ∧
      fiveCells.expected 4 = .interpolated 1 3 :=
  ⟨Chunk.fills_from_nearest lastThree _ (by decide), by decide,
    Chunk.fills_from_nearest lastThree _ (by decide), by decide⟩

end FillColumns

end WfOpt

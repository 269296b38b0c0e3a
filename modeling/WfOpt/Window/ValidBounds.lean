import WfOpt.Window.RangeSearch
import WfOpt.Window.RequiredBounds

/-!
# Valid rows

The rows of a partition whose ordering value is not `NULL` are its *valid* rows. `NULL`s are sorted first or
last, so that the valid rows stand together (`IsValidRange`). Where they start and end is computed for the
first row of a partition, and carried from row to row and from call to call.

After any run of calls, the columns have the bounds of the valid rows (`validColumns_of_reaches`).
-/

namespace WfOpt

namespace WindowBoundaries

open BoundWindowExpression Function

variable {V : Type*} (g : WindowBoundaries V)

/-! ## Groups with an ordering value -/

/-- Rows have the same ordering value: they are peers, if they are of a partition. -/
def SameOrder (r r' : ℕ) : Prop := g.range.cellIsNull r = g.range.cellIsNull r' ∧
    (g.range.cellIsNull r = false → g.range.getCell r = g.range.getCell r')

/-- The partitions of a group are sorted by a value, and peers have the same. -/
structure IsRangeGroup [LinearOrder V] (sense : OrderType) (nulls : OrderByNullType) : Prop
    extends g.IsGroup where
  orders : g.wexpr.orders = [sense]
  order_iff : ∀ r, r + 1 < g.inputSize → g.partitionMask.rowIsValid (r + 1) = false →
    (g.orderMask.rowIsValid (r + 1) = false ↔ g.SameOrder r (r + 1))
  nulls_sorted : ∀ r, r + 1 < g.inputSize → g.partitionMask.rowIsValid (r + 1) = false →
    match nulls with
    | .nullsFirst => g.range.cellIsNull (r + 1) = true → g.range.cellIsNull r = true
    | .nullsLast => g.range.cellIsNull r = true → g.range.cellIsNull (r + 1) = true
  sorted : ∀ r, r + 1 < g.inputSize → g.partitionMask.rowIsValid (r + 1) = false →
    g.range.cellIsNull r = false → g.range.cellIsNull (r + 1) = false →
      comp sense (g.range.getCell (r + 1)) (g.range.getCell r) = false

/-- The valid rows of a partition. -/
structure IsValidRange (begin stop validBegin validEnd : ℕ) : Prop where
  begin_le : begin ≤ validBegin
  le : validBegin ≤ validEnd
  le_stop : validEnd ≤ stop
  valid_iff : ∀ i, begin ≤ i → i < stop →
    (g.range.cellIsNull i = false ↔ validBegin ≤ i ∧ i < validEnd)

variable {g} in
theorem IsValidRange.unique {r begin stop first last first' last' : ℕ}
    (h : g.IsValidRange begin stop first last) (h' : g.IsValidRange begin stop first' last')
    (hr : first ≤ r ∧ r < last) : first = first' ∧ last = last' := by
  have hbegin := h.begin_le
  have hstop := h.le_stop
  have hbeg' := h'.begin_le
  have hstp' := h'.le_stop
  have hiff : ∀ i, begin ≤ i → i < stop → (first ≤ i ∧ i < last ↔ first' ≤ i ∧ i < last') :=
    fun i h₁ h₂ => (h.valid_iff i h₁ h₂).symm.trans (h'.valid_iff i h₁ h₂)
  have hrow := (hiff r (by omega) (by omega)).1 hr
  have hfst := (hiff first (by omega) (by omega)).1 ⟨le_rfl, by omega⟩
  have hfst' := (hiff first' (by omega) (by omega)).2 ⟨le_rfl, by omega⟩
  have hlst := (hiff (last - 1) (by omega) (by omega)).1 ⟨by omega, by omega⟩
  have hlst' := (hiff (last' - 1) (by omega) (by omega)).2 ⟨by omega, by omega⟩
  omega

/-- The first valid row of a partition, as it is searched. -/
def findValidBegin (begin stop : ℕ) : ℕ :=
  if begin < stop && g.range.cellIsNull begin then (g.orderMask.findNextStart (begin + 1) stop 1).1
  else begin

/-- The end of the valid rows of a partition, as it is searched. -/
def findValidEnd (validBegin stop : ℕ) : ℕ := if validBegin < stop && g.range.cellIsNull (stop - 1) then
    (g.orderMask.findPrevStart validBegin stop 1).1
  else stop

variable {g}

/-! ## The valid rows of a partition -/

section Partition

variable {r begin stop : ℕ} (hbegin : IsStartOf g.partitionMask.rowIsValid r begin)
  (hstop : IsEndOf g.partitionMask.rowIsValid g.inputSize r stop)

include hbegin hstop

theorem partition_inner {i : ℕ} (h₁ : begin < i) (h₂ : i < stop) : g.partitionMask.rowIsValid i = false := by
  rcases Nat.lt_or_ge r i with hlt | hge
  · exact hstop.inner i hlt h₂
  · exact hbegin.inner i h₁ hge

variable [LinearOrder V] {sense : OrderType} {nulls : OrderByNullType}
  (hg : g.IsRangeGroup sense nulls)

include hg

/-- Where the peers do not change, the ordering value is the same. -/
theorem cellIsNull_eq {first last : ℕ} (hfst : begin ≤ first) (hle : first ≤ last) (hlst : last < stop)
    (hinner : ∀ i, first < i → i ≤ last → g.orderMask.rowIsValid i = false) :
    g.range.cellIsNull first = g.range.cellIsNull last := by
  induction last, hle using Nat.le_induction with
  | base => rfl
  | succ last hle ih =>
    have hsm := (hg.order_iff last (hlst.trans_le hstop.le)
      (partition_inner hbegin hstop (by omega) hlst)).1 (hinner _ (by omega) le_rfl)
    rw [ih (by omega) fun i h₁ h₂ => hinner i h₁ (by omega)]
    exact hsm.1

/-- `NULL`s are at one end of the partition. -/
theorem cellIsNull_of_le {first last : ℕ} (hfst : begin ≤ first) (hle : first ≤ last) (hlst : last < stop) :
    match nulls with
    | .nullsFirst => g.range.cellIsNull last = true → g.range.cellIsNull first = true
    | .nullsLast => g.range.cellIsNull first = true → g.range.cellIsNull last = true := by
  induction last, hle using Nat.le_induction with
  | base => cases nulls <;> exact id
  | succ last hle ih =>
    have ih := ih (by omega)
    have hstep := hg.nulls_sorted last (hlst.trans_le hstop.le)
      (partition_inner hbegin hstop (by omega) hlst)
    cases nulls with
    | nullsFirst => exact fun h => ih (hstep h)
    | nullsLast => exact fun h => hstep (ih h)

/-- A row where the peers change from or to `NULL`s. -/
theorem cellIsNull_ne {i : ℕ} (h₁ : begin < i) (h₂ : i < stop) (hmark : g.orderMask.rowIsValid i = true)
    (hnl : g.range.cellIsNull (i - 1) = true ∨ g.range.cellIsNull i = true) :
    g.range.cellIsNull (i - 1) = !g.range.cellIsNull i := by
  obtain ⟨j, rfl⟩ : ∃ j, i = j + 1 := ⟨i - 1, by omega⟩
  have hdiff : ¬g.SameOrder j (j + 1) := by
    rw [← hg.order_iff j (h₂.trans_le hstop.le) (partition_inner hbegin hstop h₁ h₂), hmark]
    exact Bool.true_eq_false_eq_False
  rw [Nat.add_sub_cancel] at hnl ⊢
  cases hj : g.range.cellIsNull j <;> cases hj' : g.range.cellIsNull (j + 1)
  · rw [hj, hj'] at hnl
    exact absurd hnl (by decide)
  · rfl
  · rfl
  · exact absurd ⟨hj.trans hj'.symm, fun h => absurd (hj.symm.trans h) (by decide)⟩ hdiff

/-- If the first row is not valid, the valid rows start with the second group of peers. -/
theorem isValidRange_of_null (hnl : g.range.cellIsNull begin = true) :
    g.IsValidRange begin stop (g.findValidBegin begin stop)
    (g.findValidEnd (g.findValidBegin begin stop) stop) := by
  have hlt : begin < stop := hbegin.le.trans_lt hstop.lt
  have hmono := fun {i j : ℕ} => @cellIsNull_of_le V g r begin stop hbegin hstop _ sense nulls hg i j
  -- the first group of peers are `NULL`s
  have hfind : g.findValidBegin begin stop = (g.orderMask.findNextStart (begin + 1) stop 1).1 := by
    rw [findValidBegin, hnl, decide_eq_true hlt, Bool.and_true, if_pos rfl]
  have hprs := IsEndOf.of_nthMark (p := g.orderMask.rowIsValid) hlt
  rw [← ValidityMask.findNextStart_eq le_rfl, ← hfind] at hprs
  obtain ⟨first, hfst⟩ : ∃ first, first = g.findValidBegin begin stop := ⟨_, rfl⟩
  rw [← hfst] at hprs ⊢
  have hnulls : ∀ i, begin ≤ i → i < first → g.range.cellIsNull i = true := by
    intro i h₁ h₂
    rw [← cellIsNull_eq hbegin hstop hg le_rfl h₁ (h₂.trans_le hprs.le) fun j h₃ h₄ =>
      hprs.inner j h₃ (by omega), hnl]
  rcases hprs.le.eq_or_lt with heq | hlt'
  · -- there are no others
    have hend : g.findValidEnd first stop = stop := by
      rw [findValidEnd, heq, decide_eq_false (lt_irrefl stop), Bool.false_and, if_neg Bool.false_ne_true]
    rw [hend]
    refine ⟨hprs.lt.le, hprs.le, le_rfl, fun i h₁ h₂ => iff_of_false ?_ fun h => ?_⟩
    · rw [hnulls i h₁ (heq ▸ h₂)]
      exact Bool.true_eq_false_eq_False
    · omega
  · have hpos := hprs.lt
    have hprev := hnulls (first - 1) (by omega) (by omega)
    have hvld : g.range.cellIsNull first = false := by
      have hne := cellIsNull_ne hbegin hstop hg hpos hlt' (hprs.stop.resolve_left hlt'.ne) (.inl hprev)
      rwa [hprev, eq_comm, Bool.not_eq_true'] at hne
    have hrst : ∀ i, first ≤ i → i < stop → g.range.cellIsNull i = false := by
      intro i h₁ h₂
      cases nulls with
      | nullsFirst =>
        by_contra hi
        rw [Bool.not_eq_false] at hi
        exact Bool.false_ne_true (hvld.symm.trans (hmono hprs.lt.le h₁ h₂ hi))
      | nullsLast =>
        exact absurd (hmono le_rfl hprs.lt.le hlt' hnl) (by rw [hvld]; exact Bool.false_ne_true)
    have hend : g.findValidEnd first stop = stop := by
      rw [findValidEnd, hrst (stop - 1) (by omega) (by omega), Bool.and_false, if_neg Bool.false_ne_true]
    rw [hend]
    refine ⟨hprs.lt.le, hprs.le, le_rfl, fun i h₁ h₂ => ⟨fun h => ⟨?_, h₂⟩, fun h => hrst i h.1 h₂⟩⟩
    by_contra hi
    exact Bool.false_ne_true (h.symm.trans (hnulls i h₁ (not_le.1 hi)))

/-- If it is, and the last row is not, they end where the last group of peers starts. -/
theorem isValidRange_of_valid (hnl : g.range.cellIsNull begin = false) :
    g.IsValidRange begin stop (g.findValidBegin begin stop)
    (g.findValidEnd (g.findValidBegin begin stop) stop) := by
  have hlt : begin < stop := hbegin.le.trans_lt hstop.lt
  have hsz : begin < g.inputSize := hlt.trans_le hstop.le
  have hmark := hg.order_of_partition begin hsz hbegin.marked
  have hmono := fun {i j : ℕ} => @cellIsNull_of_le V g r begin stop hbegin hstop _ sense nulls hg i j
  have hfind : g.findValidBegin begin stop = begin := by
    rw [findValidBegin, hnl, Bool.and_false, if_neg Bool.false_ne_true]
  rw [hfind]
  cases hlst : g.range.cellIsNull (stop - 1) with
  | false =>
    have hend : g.findValidEnd begin stop = stop := by
      rw [findValidEnd, hlst, Bool.and_false, if_neg Bool.false_ne_true]
    rw [hend]
    refine ⟨le_rfl, hlt.le, le_rfl, fun i h₁ h₂ => iff_of_true ?_ ⟨h₁, h₂⟩⟩
    by_contra hi
    rw [Bool.not_eq_false] at hi
    cases nulls with
    | nullsFirst => exact Bool.false_ne_true (hnl.symm.trans (hmono le_rfl h₁ h₂ hi))
    | nullsLast =>
      exact Bool.false_ne_true (hlst.symm.trans (hmono h₁ (Nat.le_sub_one_of_lt h₂) (by omega) hi))
  | true =>
    -- the last group of peers are `NULL`s
    have hprs := IsStartOf.of_nthMarkBack (hg.order_of_partition 0 (by omega) hg.partition_zero) (stop - 1)
    obtain ⟨last, hlst'⟩ : ∃ last, last = (nthMarkBack g.orderMask.rowIsValid 0 (stop - 1 + 1) 1).1 := ⟨_, rfl⟩
    rw [← hlst'] at hprs
    have hle : begin ≤ last := by
      by_contra hlt'
      exact Bool.false_ne_true ((hprs.inner begin (not_le.1 hlt') (by omega)).symm.trans hmark)
    have hend : g.findValidEnd begin stop = last := by
      have heq := hprs.nthMarkBack_eq hle
      rw [Nat.sub_add_cancel (by omega)] at heq
      rw [findValidEnd, hlst, decide_eq_true hlt, Bool.and_true, if_pos rfl,
        ValidityMask.findPrevStart_eq le_rfl hlt.le, heq]
    have hlt' : last < stop := hprs.le.trans_lt (by omega)
    have hlastNull : g.range.cellIsNull last = true := by
      rw [cellIsNull_eq hbegin hstop hg hle hprs.le (by omega) hprs.inner, hlst]
    have hne : begin < last := by
      refine lt_of_le_of_ne hle ?_
      rintro rfl
      exact Bool.false_ne_true (hnl.symm.trans hlastNull)
    have hbef : g.range.cellIsNull (last - 1) = false := by
      rw [cellIsNull_ne hbegin hstop hg hne hlt' hprs.marked (.inr hlastNull), hlastNull, Bool.not_true]
    rw [hend]
    cases nulls with
    | nullsFirst =>
      exact absurd (hmono le_rfl (by omega) (by omega) hlst) (by rw [hnl]; exact Bool.false_ne_true)
    | nullsLast =>
      refine ⟨le_rfl, hle, hlt'.le, fun i h₁ h₂ => ⟨fun h => ⟨h₁, ?_⟩, fun h => ?_⟩⟩
      · by_contra hi
        exact Bool.false_ne_true (h.symm.trans (hmono hle (not_lt.1 hi) h₂ hlastNull))
      · by_contra hi
        rw [Bool.not_eq_false] at hi
        exact Bool.false_ne_true
          (hbef.symm.trans (hmono h₁ (Nat.le_sub_one_of_lt h.2) (by omega) hi))

/-- What is searched are the valid rows. -/
theorem isValidRange : g.IsValidRange begin stop (g.findValidBegin begin stop)
    (g.findValidEnd (g.findValidBegin begin stop) stop) := by
  cases hnl : g.range.cellIsNull begin with
  | true => exact isValidRange_of_null hbegin hstop hg hnl
  | false => exact isValidRange_of_valid hbegin hstop hg hnl

theorem isSorted {first last : ℕ} (hvld : g.IsValidRange begin stop first last) :
    IsSorted sense g.range.getCell first last := by
  intro i j hi hij hj
  have hfst := hvld.begin_le
  have hlst := hvld.le_stop
  induction j, hij using Nat.le_induction with
  | base => exact comp_self
  | succ j hle ih =>
    refine comp_le_trans (ih (by omega)) (hg.sorted j ?_ ?_ ?_ ?_)
    · exact (hj.trans_le hlst).trans_le hstop.le
    · exact partition_inner hbegin hstop (by omega) (by omega)
    · exact (hvld.valid_iff j (by omega) (by omega)).2 ⟨by omega, by omega⟩
    · exact (hvld.valid_iff (j + 1) (by omega) (by omega)).2 ⟨by omega, by omega⟩

/-- A valid row is the first of its peers if the values of those before it are before its value. -/
theorem first_iff {first last k : ℕ} (hvld : g.IsValidRange begin stop first last) (hk : first ≤ k)
    (hk' : k < last) : g.orderMask.rowIsValid k = true ↔
      ∀ i, first ≤ i → i < k → comp sense (g.range.getCell i) (g.range.getCell k) = true := by
  have hfst := hvld.begin_le
  have hlst := hvld.le_stop
  have hsz := hstop.le
  have hsort := isSorted hbegin hstop hg hvld
  have hnl := (hvld.valid_iff k (by omega) (by omega)).2 ⟨hk, hk'⟩
  constructor
  · intro hmark i hi hik
    obtain ⟨j, rfl⟩ : ∃ j, k = j + 1 := ⟨k - 1, by omega⟩
    have hnl' := (hvld.valid_iff j (by omega) (by omega)).2 ⟨by omega, by omega⟩
    have hdiff : comp sense (g.range.getCell j) (g.range.getCell (j + 1)) = true := by
      by_contra hcomp
      rw [Bool.not_eq_true] at hcomp
      have heq := eq_of_comp_eq_false hcomp (hsort j (j + 1) (by omega) (by omega) hk')
      have hsm := (hg.order_iff j (by omega) (partition_inner hbegin hstop (by omega) (by omega))).2
        ⟨hnl'.trans hnl.symm, fun _ => heq⟩
      exact Bool.false_ne_true (hsm.symm.trans hmark)
    exact comp_of_le_of_comp (hsort i j hi (by omega) (by omega)) hdiff
  · intro hbef
    by_contra hmark
    rw [Bool.not_eq_true] at hmark
    have hne : k ≠ begin := by
      rintro rfl
      exact Bool.false_ne_true (hmark.symm.trans (hg.order_of_partition k (by omega) hbegin.marked))
    obtain ⟨j, rfl⟩ : ∃ j, k = j + 1 := ⟨k - 1, by omega⟩
    obtain ⟨hsm, heq⟩ := (hg.order_iff j (by omega)
      (partition_inner hbegin hstop (by omega) (by omega))).1 hmark
    have hnl' := hsm.trans hnl
    have hj := (hvld.valid_iff j (by omega) (by omega)).1 hnl'
    have hcomp := hbef j hj.1 j.lt_succ_self
    rw [heq hnl', comp_self] at hcomp
    exact Bool.false_ne_true hcomp

/-- A valid row is the last of its peers if the values of those behind it are after its value. -/
theorem last_iff {first last k : ℕ} (hvld : g.IsValidRange begin stop first last) (hk : first ≤ k)
    (hk' : k < last) : k + 1 = g.inputSize ∨ g.orderMask.rowIsValid (k + 1) = true ↔
      ∀ i, k < i → i < last → comp sense (g.range.getCell k) (g.range.getCell i) = true := by
  have hfst := hvld.begin_le
  have hlst := hvld.le_stop
  have hsz := hstop.le
  have hsort := isSorted hbegin hstop hg hvld
  constructor
  · intro hmark i hki hi
    have hmark' := hmark.resolve_left (by omega)
    have hnx := (first_iff hbegin hstop hg hvld (by omega) (by omega)).1 hmark' k hk k.lt_succ_self
    exact comp_of_comp_of_le hnx (hsort (k + 1) i (by omega) hki hi)
  · intro hafter
    by_contra hmark
    rw [not_or, Bool.not_eq_true] at hmark
    obtain ⟨hend, hmark⟩ := hmark
    have hlt : k + 1 < stop := by
      refine lt_of_le_of_ne (by omega) ?_
      rintro rfl
      have hnew := hstop.stop.resolve_left hend
      exact Bool.false_ne_true (hmark.symm.trans (hg.order_of_partition _ (by omega) hnew))
    obtain ⟨hsm, heq⟩ := (hg.order_iff k (by omega)
      (partition_inner hbegin hstop (by omega) hlt)).1 hmark
    have hnl := (hvld.valid_iff k (by omega) (by omega)).2 ⟨hk, hk'⟩
    have hnx := (hvld.valid_iff (k + 1) (by omega) hlt).1 (hsm.symm.trans hnl)
    have hcomp := hafter (k + 1) k.lt_succ_self hnx.2
    rw [heq hnl, comp_self] at hcomp
    exact Bool.false_ne_true hcomp

end Partition

/-! ## Columns of valid rows -/

variable (g) in
/-- The first valid row of the partition of a row. -/
def IsValidBegin (r v : ℕ) : Prop := ∀ begin stop, IsStartOf g.partitionMask.rowIsValid r begin →
  IsEndOf g.partitionMask.rowIsValid g.inputSize r stop → v = g.findValidBegin begin stop

variable (g) in
/-- The end of the valid rows of the partition of a row. -/
def IsValidEnd (r v : ℕ) : Prop := ∀ begin stop, IsStartOf g.partitionMask.rowIsValid r begin →
  IsEndOf g.partitionMask.rowIsValid g.inputSize r stop → v = g.findValidEnd (g.findValidBegin begin stop) stop

variable (g) in
/-- The state carries the bounds of the valid rows. -/
structure ValidCarried (s : WindowBoundariesState) (r : ℕ) : Prop where
  validStart : .validBegin ∈ g.required → g.IsValidBegin r s.validStart
  validEnd : .validEnd ∈ g.required → g.IsValidEnd r s.validEnd

variable (g) in
/-- The columns have the bounds of the valid rows. -/
structure ValidColumns (call : BoundsCall V) (b : BoundsColumns) : Prop where
  validBegin : .validBegin ∈ g.required → ∀ i < call.count,
    g.IsValidBegin (call.rowIdx + i) (b .validBegin i)
  validEnd : .validEnd ∈ g.required → ∀ i < call.count,
    g.IsValidEnd (call.rowIdx + i) (b .validEnd i)

variable {call : BoundsCall V} {s : WindowBoundariesState} {b : BoundsColumns} {isJump : Bool}
  {p : WindowBoundariesState × BoundsColumns}

theorem IsValidBegin.succ {r v : ℕ} (h : g.IsValidBegin r v)
    (hrow : g.partitionMask.rowIsValid (r + 1) = false) : g.IsValidBegin (r + 1) v :=
  fun _ _ hbegin hstop => h _ _ (hbegin.pred hrow) (hstop.pred hrow)

theorem IsValidEnd.succ {r v : ℕ} (h : g.IsValidEnd r v)
    (hrow : g.partitionMask.rowIsValid (r + 1) = false) : g.IsValidEnd (r + 1) v :=
  fun _ _ hbegin hstop => h _ _ (hbegin.pred hrow) (hstop.pred hrow)

/-- A loop that computes a bound where a partition starts or after a jump, and carries it. -/
theorem carryValid_spec (cell : ℕ → ℕ → ℕ × ℕ) (good : ℕ → ℕ → Prop) {row count v : ℕ}
    (hsucc : ∀ r v, good r v → g.partitionMask.rowIsValid (r + 1) = false → good (r + 1) v)
    (hz : g.partitionMask.rowIsValid 0 = true)
    (hcell : ∀ i < count, ∀ v, ∃ v', cell i v = (v', v') ∧
      ((g.partitionMask.rowIsValid (row + i) || isJump) = true → good (row + i) v') ∧
      ((g.partitionMask.rowIsValid (row + i) || isJump) = false → v' = v))
    (hcnt : 0 < count) (hv : isJump = true ∨ ∀ r, row = r + 1 → good r v) :
    good (row + count - 1) (scanCells cell count 0 v).1 ∧
      ∀ (column : ℕ → ℕ), ∀ i < count, good (row + i) (storeCells column (scanCells cell count 0 v).2 i) := by
  have hspec := scanCells_spec (f := cell) (n := count) (i := 0) (s := v)
    (I := fun i v => (i = 0 ∧ isJump = true) ∨ ∀ r, row + i = r + 1 → good r v)
    (Q := fun i v => good (row + i) v) (hv.imp_left fun h => ⟨rfl, h⟩) ?_
  · obtain ⟨hlst, hlen, hall⟩ := hspec
    constructor
    · rcases hlst with ⟨hno, -⟩ | hlst
      · omega
      · exact hlst _ (by omega)
    · intro column i hi
      rw [storeCells_of_lt (by omega)]
      have hgood := hall i (by omega)
      rwa [Nat.zero_add] at hgood
  · intro i v _ hi hinv
    obtain ⟨v', hv', hnew, hold⟩ := hcell i (by omega) v
    have hgood : good (row + i) v' := by
      cases hbit : (g.partitionMask.rowIsValid (row + i) || isJump) with
      | true => exact hnew hbit
      | false =>
        rw [hold hbit]
        rw [Bool.or_eq_false_iff] at hbit
        obtain ⟨r, hr⟩ := exists_eq_succ_of_not_marked hz hbit.1
        have hprev := (hinv.resolve_left fun h => Bool.false_ne_true (hbit.2.symm.trans h.2)) r hr
        rw [hr] at hbit ⊢
        exact hsucc r v hprev hbit.1
    rw [hv']
    refine ⟨.inr fun r hr => ?_, hgood⟩
    rwa [show r = row + i by omega]

theorem validBegin_spec (hg : g.IsGroup) (hcall : g.InGroup call) (hpart : ∀ i < call.count,
      IsStartOf g.partitionMask.rowIsValid (call.rowIdx + i) (p.2 .partitionBegin i) ∧
      IsEndOf g.partitionMask.rowIsValid g.inputSize (call.rowIdx + i) (p.2 .partitionEnd i))
    (h : isJump = true ∨ ∀ r, call.rowIdx = r + 1 → g.IsValidBegin r p.1.validStart) :
    ∃ v column, g.validBegin call isJump p = ({ p.1 with validStart := v }, update p.2 .validBegin column) ∧
      g.IsValidBegin (call.rowIdx + call.count - 1) v ∧
      ∀ i < call.count, g.IsValidBegin (call.rowIdx + i) (column i) := by
  have hspec := carryValid_spec (g := g) (g.validBeginCell call isJump p.2) g.IsValidBegin
    (fun _ _ h hrow => h.succ hrow) hg.partition_zero (fun i hi v => ?_) hcall.pos h
  · exact ⟨_, _, rfl, hspec.1, hspec.2 _⟩
  · refine ⟨_, rfl, fun hnew => ?_, fun hold => ?_⟩
    · rw [if_pos hnew]
      intro begin stop hbegin hstop
      obtain ⟨hbeg', hstp'⟩ := hpart i hi
      rw [hbeg'.unique hbegin, hstp'.unique hstop, findValidBegin]
    · exact if_neg (Bool.eq_false_iff.1 hold)

theorem validEnd_spec (hg : g.IsGroup) (hcall : g.InGroup call) (hpart : ∀ i < call.count,
      IsEndOf g.partitionMask.rowIsValid g.inputSize (call.rowIdx + i) (p.2 .partitionEnd i))
    (hvld : ∀ i < call.count, g.IsValidBegin (call.rowIdx + i) (p.2 .validBegin i))
    (h : isJump = true ∨ ∀ r, call.rowIdx = r + 1 → g.IsValidEnd r p.1.validEnd) :
    ∃ v column, g.validEnd call isJump p = ({ p.1 with validEnd := v }, update p.2 .validEnd column) ∧
      g.IsValidEnd (call.rowIdx + call.count - 1) v ∧
      ∀ i < call.count, g.IsValidEnd (call.rowIdx + i) (column i) := by
  have hspec := carryValid_spec (g := g) (g.validEndCell call isJump p.2) g.IsValidEnd
    (fun _ _ h hrow => h.succ hrow) hg.partition_zero (fun i hi v => ?_) hcall.pos h
  · exact ⟨_, _, rfl, hspec.1, hspec.2 _⟩
  · refine ⟨_, rfl, fun hnew => ?_, fun hold => ?_⟩
    · rw [if_pos hnew]
      intro begin stop hbegin hstop
      rw [hvld i hi begin stop hbegin hstop, (hpart i hi).unique hstop, findValidEnd]
    · exact if_neg (Bool.eq_false_iff.1 hold)

/-! ## The columns of a call -/

/-- The steps for partitions and peers do not touch the bounds of the valid rows. -/
def SameValid (p q : WindowBoundariesState × BoundsColumns) : Prop :=
  q.1.validStart = p.1.validStart ∧ q.1.validEnd = p.1.validEnd ∧ q.2 .validEnd = p.2 .validEnd

theorem SameValid.whenRequired {q : WindowBoundariesState × BoundsColumns} (h : SameValid p q)
    (bound : BoundsColumn) {f : WindowBoundariesState × BoundsColumns → WindowBoundariesState × BoundsColumns}
    (hf : SameValid q (f q)) : SameValid p (g.whenRequired bound f q) := by
  by_cases hreq : bound ∈ g.required
  · rw [whenRequired_of_mem hreq]
    exact ⟨hf.1.trans h.1, hf.2.1.trans h.2.1, hf.2.2.trans h.2.2⟩
  · rwa [whenRequired_of_not_mem hreq]

theorem sameValid_partitionBegin : SameValid p (g.partitionBegin call isJump p) := by
  rw [partitionBegin]
  have hne : BoundsColumn.validEnd ≠ .partitionBegin := by decide
  split_ifs
  · exact ⟨rfl, rfl, by dsimp only; rw [BoundsColumns.fill_of_ne hne]⟩
  · exact ⟨rfl, rfl, by dsimp only; rw [BoundsColumns.store_of_ne hne]⟩

theorem sameValid_partitionEnd : SameValid p (g.partitionEnd call isJump p) := by
  rw [partitionEnd]
  have hne : BoundsColumn.validEnd ≠ .partitionEnd := by decide
  split_ifs
  · exact ⟨rfl, rfl, by dsimp only; rw [BoundsColumns.fill_of_ne hne]⟩
  · exact ⟨rfl, rfl, by dsimp only; rw [BoundsColumns.store_of_ne hne]⟩

theorem sameValid_peerBegin : SameValid p (g.peerBegin call isJump p) := by
  rw [peerBegin]
  have hne : BoundsColumn.validEnd ≠ .peerBegin := by decide
  split_ifs
  · exact ⟨rfl, rfl, by dsimp only; rw [BoundsColumns.fill_of_ne hne]⟩
  · exact ⟨rfl, rfl, by dsimp only; rw [BoundsColumns.store_of_ne hne]⟩

theorem sameValid_peerEnd : SameValid p (g.peerEnd call p) := by
  rw [peerEnd]
  have hne : BoundsColumn.validEnd ≠ .peerEnd := by decide
  split_ifs
  · exact ⟨rfl, rfl, by dsimp only; rw [BoundsColumns.reference_of_ne hne]⟩
  · exact ⟨rfl, rfl, by dsimp only; rw [BoundsColumns.store_of_ne hne]⟩

/-- The steps for the valid rows do not touch other columns. -/
theorem validColumns_of_ne {c : BoundsColumn} (h : c ≠ .validBegin) (h' : c ≠ .validEnd) :
    (g.whenRequired .validEnd (g.validEnd call isJump)
      (g.whenRequired .validBegin (g.validBegin call isJump) p)).2 c = p.2 c := by
  have hbegin : (g.whenRequired .validBegin (g.validBegin call isJump) p).2 c = p.2 c := by
    by_cases hreq : .validBegin ∈ g.required
    · rw [whenRequired_of_mem hreq]
      exact BoundsColumns.store_of_ne h _
    · rw [whenRequired_of_not_mem hreq]
  by_cases hreq : .validEnd ∈ g.required
  · rw [whenRequired_of_mem hreq, ← hbegin]
    exact BoundsColumns.store_of_ne h' _
  · rw [whenRequired_of_not_mem hreq, hbegin]

/-- From the valid rows of the row before, the state comes to those of the last row, and the columns have those of all
    rows. -/
theorem rowBounds_valid (hg : g.IsGroup) (hcall : g.InGroup call)
    (hs : ∀ r, s.nextPos = r + 1 → g.Carried s r ∧ g.ValidCarried s r) (b : BoundsColumns) :
    g.ValidCarried (g.rowBounds call s b).1 (call.rowIdx + call.count - 1) ∧
      g.ValidColumns call (g.rowBounds call s b).2 ∧
      (.validEnd ∉ g.required →
        (g.rowBounds call s b).1.validEnd = s.validEnd ∧ (g.rowBounds call s b).2 .validEnd = b .validEnd) := by
  obtain ⟨-, -, hrs⟩ := rowBounds_spec hg hcall (fun r hr => (hs r hr).1) b
  obtain ⟨jump, hjump⟩ : ∃ jump : Bool, jump = decide (s.nextPos ≠ call.rowIdx) := ⟨_, rfl⟩
  have hcarr : jump = true ∨ ∀ r, call.rowIdx = r + 1 → g.ValidCarried s r := by
    by_cases h : s.nextPos = call.rowIdx
    · exact .inr fun r hr => (hs r (h.trans hr)).2
    · exact .inl (hjump ▸ decide_eq_true h)
  rw [rowBounds] at hrs ⊢
  simp only [← hjump] at hrs ⊢
  obtain ⟨p, hp⟩ : ∃ p, p = g.whenRequired .peerEnd (g.peerEnd call) (g.whenRequired .peerBegin
      (g.peerBegin call jump) (g.whenRequired .partitionEnd (g.partitionEnd call jump)
        (g.whenRequired .partitionBegin (g.partitionBegin call jump)
          ({ s with nextPos := call.rowIdx }, b)))) := ⟨_, rfl⟩
  have hsm : SameValid ({ s with nextPos := call.rowIdx }, b) p := by
    have h₀ : SameValid ({ s with nextPos := call.rowIdx }, b) ({ s with nextPos := call.rowIdx }, b) :=
      ⟨rfl, rfl, rfl⟩
    rw [hp]
    exact (((h₀.whenRequired .partitionBegin sameValid_partitionBegin).whenRequired .partitionEnd
      sameValid_partitionEnd).whenRequired .peerBegin sameValid_peerBegin).whenRequired .peerEnd
        sameValid_peerEnd
  obtain ⟨hst, hstop, hcolumn⟩ := hsm
  rw [← hp] at hrs ⊢
  have hbegin : .partitionBegin ∈ g.required → ∀ i < call.count,
      IsStartOf g.partitionMask.rowIsValid (call.rowIdx + i) (p.2 .partitionBegin i) := by
    intro hreq i hi
    have hrow := hrs.partitionBegin hreq i hi
    rwa [validColumns_of_ne (by decide) (by decide)] at hrow
  have hend : .partitionEnd ∈ g.required → ∀ i < call.count,
      IsEndOf g.partitionMask.rowIsValid g.inputSize (call.rowIdx + i) (p.2 .partitionEnd i) := by
    intro hreq i hi
    have hrow := hrs.partitionEnd hreq i hi
    rwa [validColumns_of_ne (by decide) (by decide)] at hrow
  obtain ⟨v₁, c₁, h₁, hv₁⟩ := exists_whenRequired (g := g) .validBegin WindowBoundariesState.validStart
    (fun v t => { t with validStart := v }) _ (fun _ => rfl) fun hreq => validBegin_spec (p := p) hg hcall
      (fun i hi => ⟨hbegin (partition_mem_of_validBegin (w := g.wexpr) hreq).1 i hi,
        hend (partition_mem_of_validBegin (w := g.wexpr) hreq).2 i hi⟩)
      (hcarr.imp_right fun h r hr => by rw [hst]; exact (h r hr).validStart hreq)
  rw [h₁]
  obtain ⟨v₂, c₂, h₂, hv₂⟩ := exists_whenRequired (g := g) .validEnd WindowBoundariesState.validEnd
    (fun v t => { t with validEnd := v }) _ (fun _ => rfl) fun hreq => validEnd_spec
      (p := ({ p.1 with validStart := v₁ }, update p.2 .validBegin c₁)) hg hcall
      (hend (validBegin_mem (w := g.wexpr) hreq).2) (hv₁ (validBegin_mem (w := g.wexpr) hreq).1).2
      (hcarr.imp_right fun h r hr => by
        rw [hstop]
        exact (h r hr).validEnd hreq)
  refine ⟨?_, ?_, fun hreq => ?_⟩
  · rw [h₂]
    exact ⟨fun hreq => (hv₁ hreq).1, fun hreq => (hv₂ hreq).1⟩
  · rw [h₂]
    exact ⟨fun hreq => (hv₁ hreq).2, fun hreq => (hv₂ hreq).2⟩
  · rw [whenRequired_of_not_mem hreq]
    exact ⟨hstop, hcolumn⟩

section Runs

variable [LinearOrder V]

/-- After any run of calls, the state carries the bounds of the valid rows, with a zero for an end that is not
    required. -/
theorem validCarried_of_reaches (hg : g.IsGroup) (hs : g.Reaches s) :
    (∀ r, s.nextPos = r + 1 → g.Carried s r ∧ g.ValidCarried s r) ∧ (.validEnd ∉ g.required → s.validEnd = 0) := by
  refine @Reachable.invariant _ _ _ (fun s => (∀ r, s.nextPos = r + 1 → g.Carried s r ∧ g.ValidCarried s r) ∧
    (.validEnd ∉ g.required → s.validEnd = 0)) ?_ ?_ _ hs
  · rintro s rfl
    exact ⟨fun r hr => (nomatch hr), fun _ => rfl⟩
  · rintro s s' - ⟨hinv, hz⟩ ⟨call, b, b', hcall, hrun⟩
    obtain ⟨hpos, hcarr, -⟩ := rowBounds_spec hg hcall (fun r hr => (hinv r hr).1) b
    obtain ⟨hvld, -, hkept⟩ := rowBounds_valid hg hcall hinv b
    obtain ⟨-, -, -, rfl⟩ := bounds_cases hrun
    constructor
    · intro r hr
      have hrow : r = call.rowIdx + call.count - 1 := by
        dsimp only at hr
        omega
      rw [hrow]
      exact ⟨⟨hcarr.partitionStart, hcarr.partitionEnd, hcarr.peerStart⟩, ⟨hvld.validStart, hvld.validEnd⟩⟩
    · intro hreq
      exact (hkept hreq).1.trans (hz hreq)

end Runs


end WindowBoundaries

end WfOpt

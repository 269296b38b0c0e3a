import WfOpt.Storage.Statistics

/-!
# Statistics of arithmetic

The operators `+`, `-` and `*` check for overflow, unless the statistics of both sides rule it out: then
`PropagateNumericStats` replaces them by the ones that wrap around. It looks at corners of the box of both
bounds only. A sum or difference is largest and smallest at two of them, and a product at one of the four, as
it is monotone or antitone in each factor (`mul_between`).
-/

namespace WfOpt.Arithmetic

open Option List

/-- The types that statistics are propagated for. -/
inductive IntegerType
  | int8
  | int16
  | int32
  | int64

namespace IntegerType

def bits : IntegerType → ℕ
  | int8 => 8
  | int16 => 16
  | int32 => 32
  | int64 => 64

def minimum (T : IntegerType) : ℤ := -2 ^ (T.bits - 1)

def maximum (T : IntegerType) : ℤ := 2 ^ (T.bits - 1) - 1

/-- A result, computed in a type twice as wide, is refused if it is not of the type. -/
def checked (T : IntegerType) (result : ℤ) : Option ℤ :=
  if result < T.minimum ∨ result > T.maximum then none else some result

/-- A result of an operator that is not checked. -/
def wrapped (T : IntegerType) (result : ℤ) : ℤ := result.bmod (2 ^ T.bits)

end IntegerType

inductive Operator
  | add
  | subtract
  | multiply

def Operator.exact : Operator → ℤ → ℤ → ℤ
  | add, left, right => left + right
  | subtract, left, right => left - right
  | multiply, left, right => left * right

variable (T : IntegerType) (lstats rstats : NumericStatsData)

/-- `AddPropagateStatistics`: the new bounds, unless there may be an overflow. -/
def addPropagateStatistics : Option (ℤ × ℤ) := do
  let min ← T.checked (lstats.min + rstats.min)
  let max ← T.checked (lstats.max + rstats.max)
  return (min, max)

/-- `SubtractPropagateStatistics` -/
def subtractPropagateStatistics : Option (ℤ × ℤ) := do
  let min ← T.checked (lstats.min - rstats.max)
  let max ← T.checked (lstats.max - rstats.min)
  return (min, max)

/-- The product of two bounds, in `MultiplyPropagateStatistics`. -/
def multiplyCorner (bounds : ℤ × ℤ) (lval rval : ℤ) : Option (ℤ × ℤ) := do
  let result ← T.checked (lval * rval)
  return (if result < bounds.1 then result else bounds.1, if result > bounds.2 then result else bounds.2)

/-- `MultiplyPropagateStatistics` -/
def multiplyPropagateStatistics : Option (ℤ × ℤ) := [lstats.min, lstats.max].foldlM (fun bounds lval =>
    [rstats.min, rstats.max].foldlM (fun bounds rval => multiplyCorner T bounds lval rval) bounds)
    (T.maximum, T.minimum)

/-- The `PROPAGATE` of an operator. -/
def Operator.propagate : Operator → Option (ℤ × ℤ)
  | add => addPropagateStatistics T lstats rstats
  | subtract => subtractPropagateStatistics T lstats rstats
  | multiply => multiplyPropagateStatistics T lstats rstats

/-- `NumericStats::CreateEmpty`, with the new bounds if there are any. -/
def withBounds : Option (ℤ × ℤ) → NumericStatsData
  | some (min, max) => ⟨min, max, true, true⟩
  | none => { NumericStats.createEmpty T.minimum T.maximum with hasMin := false, hasMax := false }

/-- `PropagateNumericStats`: the statistics of the result, and whether the operator is replaced. -/
def propagateNumericStats (op : Operator) : NumericStatsData × Bool :=
  let bounds := if NumericStats.hasMinMax lstats && NumericStats.hasMinMax rstats then
    op.propagate T lstats rstats else none
  (withBounds T bounds, bounds.isSome)

/-- `NegatePropagateStatistics` -/
def negatePropagateStatistics (istats : NumericStatsData) : Option (ℤ × ℤ) :=
  if istats.min = T.minimum ∨ istats.max = T.minimum then none else some (-istats.max, -istats.min)

/-- `NegateBindStatistics` -/
def negateBindStatistics (istats : NumericStatsData) : NumericStatsData :=
  withBounds T (if NumericStats.hasMinMax istats then negatePropagateStatistics T istats else none)

/-! ## Corners -/

variable {T lstats rstats}

theorem checked_eq_some {result value : ℤ} (h : T.checked result = some value) :
    value = result ∧ T.minimum ≤ result ∧ result ≤ T.maximum := by
  rw [IntegerType.checked] at h
  split_ifs at h with hrng
  rw [some_inj] at h
  omega

theorem wrapped_eq {result : ℤ} (hmin : T.minimum ≤ result) (hmax : result ≤ T.maximum) :
    T.wrapped result = result := by
  rw [IntegerType.minimum] at hmin
  rw [IntegerType.maximum] at hmax
  cases T <;> exact Int.bmod_eq_of_le (by simpa [IntegerType.bits] using hmin)
    (by simp only [IntegerType.bits] at hmax ⊢; omega)

/-- A product with a factor between two bounds is between the products with these. -/
theorem mul_between_bounds {a b l r : ℤ} (ha : a ≤ l) (hb : l ≤ b) :
    min (a * r) (b * r) ≤ l * r ∧ l * r ≤ max (a * r) (b * r) := by
  rcases le_total 0 r with hr | hr
  · have hlow := mul_le_mul_of_nonneg_right ha hr
    exact ⟨min_le_of_left_le hlow, le_max_of_le_right (mul_le_mul_of_nonneg_right hb hr)⟩
  · have hlow := mul_le_mul_of_nonpos_right hb hr
    exact ⟨min_le_of_right_le hlow, le_max_of_le_left (mul_le_mul_of_nonpos_right ha hr)⟩

/-- A product of two factors between bounds is between bounds of the products at the corners. -/
theorem mul_between {a b c d l r low high : ℤ} (ha : a ≤ l) (hb : l ≤ b) (hc : c ≤ r) (hd : r ≤ d)
    (hlow : ∀ x ∈ [a, b], ∀ y ∈ [c, d], low ≤ x * y) (hhigh : ∀ x ∈ [a, b], ∀ y ∈ [c, d], x * y ≤ high) :
    low ≤ l * r ∧ l * r ≤ high := by
  have hside (x : ℤ) (hx : x ∈ [a, b]) : low ≤ x * r ∧ x * r ≤ high := by
    obtain ⟨hle, hge⟩ := @mul_between_bounds c d r x hc hd
    rw [mul_comm r, mul_comm c, mul_comm d] at hle hge
    exact ⟨(le_min (hlow x hx c (by simp)) (hlow x hx d (by simp))).trans hle,
      hge.trans (max_le (hhigh x hx c (by simp)) (hhigh x hx d (by simp)))⟩
  obtain ⟨hle, hge⟩ := @mul_between_bounds a b l r ha hb
  exact ⟨(le_min (hside a (by simp)).1 (hside b (by simp)).1).trans hle,
    hge.trans (max_le (hside a (by simp)).2 (hside b (by simp)).2)⟩

theorem multiplyCorner_spec {bounds new : ℤ × ℤ} {lval rval : ℤ} (h : multiplyCorner T bounds lval rval = some new) :
    (T.minimum ≤ lval * rval ∧ lval * rval ≤ T.maximum) ∧ new.1 ≤ bounds.1 ∧ bounds.2 ≤ new.2 ∧
      new.1 ≤ lval * rval ∧ lval * rval ≤ new.2 := by
  rw [multiplyCorner, bind_eq_bind, bind_eq_some_iff] at h
  obtain ⟨result, hres, heq⟩ := h
  obtain ⟨rfl, hrng⟩ := checked_eq_some hres
  cases heq
  split_ifs <;> omega

/-- The results of an operator are of the type, and within the new bounds, if there are any. -/
theorem propagate_spec {op : Operator} {min max l r : ℤ} (h : op.propagate T lstats rstats = some (min, max))
    (hl : lstats.min ≤ l) (hl' : l ≤ lstats.max) (hr : rstats.min ≤ r) (hr' : r ≤ rstats.max) :
    (T.minimum ≤ op.exact l r ∧ op.exact l r ≤ T.maximum) ∧ min ≤ op.exact l r ∧ op.exact l r ≤ max := by
  cases op with
  | add =>
    obtain ⟨low, hlow, high, hhigh, heq⟩ := by
      simpa only [Operator.propagate, addPropagateStatistics, bind_eq_bind, bind_eq_some_iff] using h
    have := checked_eq_some hlow
    have := checked_eq_some hhigh
    cases heq
    rw [Operator.exact]
    omega
  | subtract =>
    obtain ⟨low, hlow, high, hhigh, heq⟩ := by
      simpa only [Operator.propagate, subtractPropagateStatistics, bind_eq_bind, bind_eq_some_iff] using h
    have := checked_eq_some hlow
    have := checked_eq_some hhigh
    cases heq
    rw [Operator.exact]
    omega
  | multiply =>
    obtain ⟨second, ⟨first, hfst, hsnd⟩, third, hthird, hfourth⟩ := by
      simpa only [Operator.propagate, multiplyPropagateStatistics, foldlM_cons, foldlM_nil, bind_pure,
        bind_eq_bind, bind_eq_some_iff] using h
    have hfst := multiplyCorner_spec hfst
    have hsnd := multiplyCorner_spec hsnd
    have hthird := multiplyCorner_spec hthird
    have hfourth := multiplyCorner_spec hfourth
    constructor
    iterate 2
      · refine mul_between hl hl' hr hr' ?_ ?_ <;>
          simp only [forall_mem_cons, not_mem_nil, false_implies, implies_true, and_true] <;> omega

/-- An operator is replaced only if nothing within the bounds overflows, and the results are within the new bounds. -/
theorem propagate_sound (T : IntegerType) (lstats rstats : NumericStatsData) :
    (∀ op : Operator, (propagateNumericStats T lstats rstats op).2 = true →
      ∀ l r, lstats.min ≤ l → l ≤ lstats.max → rstats.min ≤ r → r ≤ rstats.max →
        T.wrapped (op.exact l r) = op.exact l r ∧ (propagateNumericStats T lstats rstats op).1.min ≤ op.exact l r ∧
          op.exact l r ≤ (propagateNumericStats T lstats rstats op).1.max) ∧
      ((negateBindStatistics T lstats).hasMin = true → ∀ v, lstats.min ≤ v → v ≤ lstats.max →
        (negateBindStatistics T lstats).min ≤ -v ∧ -v ≤ (negateBindStatistics T lstats).max) := by
  constructor
  · intro op hreplaced l r hl hl' hr hr'
    rw [propagateNumericStats] at hreplaced ⊢
    obtain ⟨⟨min, max⟩, hbds⟩ := isSome_iff_exists.1 hreplaced
    rw [hbds]
    split_ifs at hbds
    obtain ⟨⟨hmin, hmax⟩, hwith⟩ := propagate_spec hbds hl hl' hr hr'
    exact ⟨wrapped_eq hmin hmax, hwith⟩
  · intro hbds v hv hv'
    rw [negateBindStatistics] at hbds ⊢
    split_ifs at hbds ⊢ with hstats
    · rw [negatePropagateStatistics] at hbds ⊢
      split_ifs at hbds ⊢ with hnegate
      · exact absurd hbds Bool.false_ne_true
      · rw [withBounds]
        dsimp only
        omega
    · exact absurd hbds Bool.false_ne_true

/-- Products of `int8_t` between -3 and 4, and between -5 and 2. -/
theorem propagate_sound_int8 :
    (∀ l r : ℤ, -3 ≤ l → l ≤ 4 → -5 ≤ r → r ≤ 2 → IntegerType.int8.wrapped (l * r) = l * r ∧ -20 ≤ l * r ∧ l * r ≤ 15) ∧
      ∀ v : ℤ, -3 ≤ v → v ≤ 4 → -4 ≤ -v ∧ -v ≤ 3 :=
  have h := propagate_sound .int8 ⟨-3, 4, true, true⟩ ⟨-5, 2, true, true⟩
  ⟨h.1 .multiply rfl, h.2 rfl⟩

end WfOpt.Arithmetic

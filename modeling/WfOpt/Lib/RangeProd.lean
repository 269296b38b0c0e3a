import Mathlib

/-!
# Products over ranges

The product of the values of a function over a range of numbers, in order
(`rangeProd`), in a monoid that need not be commutative. Ranges that meet can be joined
(`rangeProd_mul_rangeProd`), and products of blocks are products over blocks
(`rangeProd_block`), of which there can be several levels (`levelProd`).
-/

namespace WfOpt

open List

variable {M : Type*} [Monoid M]

/-- The product of `f i` for `b ≤ i < e`, in order. -/
def rangeProd (f : ℕ → M) (b e : ℕ) : M := ((range' b (e - b)).map f).prod

variable {f g : ℕ → M} {b m e k l : ℕ}

theorem rangeProd_of_le (h : e ≤ b) : rangeProd f b e = 1 := by
  rw [rangeProd, Nat.sub_eq_zero_of_le h]
  rfl

@[simp] theorem rangeProd_self : rangeProd f b b = 1 := rangeProd_of_le le_rfl

@[simp] theorem rangeProd_single : rangeProd f b (b + 1) = f b := by
  rw [rangeProd, Nat.add_sub_cancel_left]
  exact prod_singleton

theorem rangeProd_mul_rangeProd (h : b ≤ m) (h' : m ≤ e) : rangeProd f b m * rangeProd f m e = rangeProd f b e := by
  have hspl : range' b (e - b) = range' b (m - b) ++ range' m (e - m) := by
    rw [← Nat.sub_add_sub_cancel h' h, Nat.add_comm, ← range'_append_1, Nat.add_sub_cancel' h]
  rw [rangeProd, rangeProd, rangeProd, hspl, map_append, prod_append]

theorem rangeProd_succ (h : b ≤ e) : rangeProd f b (e + 1) = rangeProd f b e * f e := by
  rw [← rangeProd_mul_rangeProd h (Nat.le_succ e), rangeProd_single]

theorem rangeProd_congr (h : ∀ i, b ≤ i → i < e → f i = g i) : rangeProd f b e = rangeProd g b e := by
  refine congrArg prod (map_congr_left fun i hi => ?_)
  rw [mem_range'_1] at hi
  exact h i hi.1 (by omega)

theorem rangeProd_eq_one (h : ∀ i, b ≤ i → i < e → f i = 1) : rangeProd f b e = 1 := by
  rw [rangeProd_congr h, rangeProd]
  simp

/-- Items that are left out count as `1`. -/
theorem prod_filter_range' {p : ℕ → Bool} : (((range' b (e - b)).filter p).map f).prod =
      rangeProd (fun i => if p i = true then f i else 1) b e := by
  rw [rangeProd]
  induction range' b (e - b) with
  | nil => rfl
  | cons i l ih =>
    rw [filter_cons, map_cons, prod_cons]
    split_ifs with hi
    · rw [map_cons, prod_cons, ih]
    · rw [ih, one_mul]

/-- A single item that contributes. -/
theorem rangeProd_eq_ite {i : ℕ} (h : ∀ j, j ≠ i → f j = 1) :
    rangeProd f b e = if b ≤ i ∧ i < e then f i else 1 := by
  split_ifs with hi
  · rw [← rangeProd_mul_rangeProd hi.1 hi.2.le, ← rangeProd_mul_rangeProd (Nat.le_succ i) hi.2,
      rangeProd_single, rangeProd_eq_one fun j _ hj => h j hj.ne,
      rangeProd_eq_one fun j hj _ => h j (Nat.ne_of_gt hj), one_mul, mul_one]
  · refine rangeProd_eq_one fun j hb he => h j fun heq => hi ?_
    exact ⟨heq ▸ hb, heq ▸ he⟩

/-- A range is cut around a middle that differs. -/
theorem rangeProd_around {x y : ℕ} (hxy : x ≤ y) (h : ∀ i, i < x ∨ y ≤ i → f i = g i) :
    rangeProd f b (min x e) * rangeProd g (max b (min x e)) (max b (min y e)) *
      rangeProd f (max y b) e = rangeProd g b e := by
  have hlft : rangeProd f b (min x e) = rangeProd g b (max b (min x e)) := by
    rcases le_total b (min x e) with hle | hle
    · rw [max_eq_right hle]
      exact rangeProd_congr fun i _ hi => h i (.inl (hi.trans_le (min_le_left ..)))
    · rw [max_eq_left hle, rangeProd_self, rangeProd_of_le hle]
  have hrt : rangeProd f (max y b) e = rangeProd g (max b (min y e)) e := by
    rcases le_total y e with hle | hle
    · rw [min_eq_left hle, max_comm]
      exact rangeProd_congr fun i hi _ => h i (.inr ((le_max_right ..).trans hi))
    · rw [min_eq_right hle, rangeProd_of_le (hle.trans (le_max_left ..)), rangeProd_of_le (le_max_right ..)]
  have hmid : max b (min x e) ≤ max b (min y e) := max_le_max le_rfl (min_le_min hxy le_rfl)
  rw [hlft, hrt, rangeProd_mul_rangeProd (le_max_left ..) hmid]
  rcases le_total b e with hle | hle
  · exact rangeProd_mul_rangeProd (le_max_left ..) (max_le hle (min_le_right ..))
  · have hemp : max b (min y e) = b := max_eq_left ((min_le_right ..).trans hle)
    rw [hemp, rangeProd_self, one_mul]

/-! ## Blocks -/

theorem rangeProd_block :
    rangeProd (fun i => rangeProd f (i * k) ((i + 1) * k)) b e = rangeProd f (b * k) (e * k) := by
  rcases Nat.lt_or_ge e b with hlt | hge
  · rw [rangeProd_of_le hlt.le, rangeProd_of_le (Nat.mul_le_mul_right k hlt.le)]
  · induction e, hge using Nat.le_induction with
    | base => rw [rangeProd_self, rangeProd_self]
    | succ e hbe ih =>
      rw [rangeProd_succ hbe, ih]
      exact rangeProd_mul_rangeProd (Nat.mul_le_mul_right k hbe)
        (Nat.mul_le_mul_right k (Nat.le_succ e))

/-- The product of a block of a level, which has `k` blocks of the level below. -/
def levelProd (f : ℕ → M) (k l i : ℕ) : M := rangeProd f (i * k ^ l) ((i + 1) * k ^ l)

@[simp] theorem levelProd_zero : levelProd f k 0 = f := by
  funext i
  rw [levelProd, Nat.pow_zero, Nat.mul_one, Nat.mul_one, rangeProd_single]

theorem rangeProd_levelProd : rangeProd (levelProd f k l) b e = rangeProd f (b * k ^ l) (e * k ^ l) :=
  rangeProd_block

/-- Blocks of a level are cut into those of the level below. -/
theorem rangeProd_levelProd_succ :
    rangeProd (levelProd f k (l + 1)) b e = rangeProd (levelProd f k l) (b * k) (e * k) := by
  rw [rangeProd_levelProd, rangeProd_levelProd, Nat.pow_succ', Nat.mul_assoc, Nat.mul_assoc]

theorem levelProd_succ {i : ℕ} : levelProd f k (l + 1) i = rangeProd (levelProd f k l) (i * k) ((i + 1) * k) := by
  rw [← rangeProd_levelProd_succ, rangeProd_single]

end WfOpt

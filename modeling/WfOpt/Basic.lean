import Mathlib

/-!
# Machine words and vectors

The constants and the index arithmetic the whole development shares: `idx_t` is
a 64-bit unsigned integer, modelled by `ℕ` wherever no operation can leave its
range, and by the wrapping operations below (`idxAdd`, `idxSub`) wherever the
source lets it wrap around.
-/

namespace WfOpt

/-- The number of values of `idx_t`. -/
def idxRange : ℕ := 2 ^ 64

/-- The number of rows of a full vector (`STANDARD_VECTOR_SIZE`). -/
def standardVectorSize : ℕ := 2048

/-- Addition of `idx_t`, wrapping around. -/
def idxAdd (a b : ℕ) : ℕ := (a + b) % idxRange

/-- Subtraction of `idx_t`, wrapping around. -/
def idxSub (a b : ℕ) : ℕ := (a + idxRange - b) % idxRange

theorem idxSub_of_le {a b : ℕ} (h : b ≤ a) (ha : a < idxRange) : idxSub a b = a - b := by
  have : a + idxRange - b = (a - b) + idxRange := by omega
  rw [idxSub, this, Nat.add_mod_right, Nat.mod_eq_of_lt (by omega)]

/-- Moving `i` by the wrapped distance from `a` to `b` moves it by the exact one, if it ends up in the range. -/
theorem idxAdd_idxSub {i j a b : ℕ} (ha : a < idxRange) (hj : j < idxRange)
    (h : i + b = j + a) : idxAdd i (idxSub b a) = j := by
  rw [idxAdd, idxSub]
  rcases Nat.lt_or_ge b a with hlt | hge
  · have h₁ : (b + idxRange - a) % idxRange = b + idxRange - a := Nat.mod_eq_of_lt (by omega)
    have h₂ : i + (b + idxRange - a) = j + idxRange := by omega
    rw [h₁, h₂, Nat.add_mod_right, Nat.mod_eq_of_lt hj]
  · have h₁ : b + idxRange - a = (b - a) + idxRange := by omega
    have h₂ : (b - a) % idxRange = b - a := Nat.mod_eq_of_lt (by omega)
    have h₃ : i + (b - a) = j := by omega
    rw [h₁, Nat.add_mod_right, h₂, h₃, Nat.mod_eq_of_lt hj]

/-- The order of `int32_t`. -/
instance linearOrderInt32 : LinearOrder Int32 where
  le_refl _ := Int32.le_iff_toInt_le.2 le_rfl
  le_trans x y z h₁ h₂ := by
    rw [Int32.le_iff_toInt_le] at *
    exact h₁.trans h₂
  le_antisymm x y h₁ h₂ := by
    rw [Int32.le_iff_toInt_le] at *
    exact Int32.toInt.inj (h₁.antisymm h₂)
  lt_iff_le_not_ge x y := by
    rw [Int32.lt_iff_toInt_lt, Int32.le_iff_toInt_le, Int32.le_iff_toInt_le]
    exact lt_iff_le_not_ge
  le_total x y := by
    rw [Int32.le_iff_toInt_le, Int32.le_iff_toInt_le]
    exact le_total _ _
  toDecidableLE := inferInstance
  toDecidableLT := inferInstance

/-- Bytes are compared as unsigned numbers. -/
instance linearOrderUInt8 : LinearOrder UInt8 where
  le_refl := UInt8.le_refl
  le_trans _ _ _ := UInt8.le_trans
  le_antisymm _ _ := UInt8.le_antisymm
  le_total := UInt8.le_total
  lt_iff_le_not_ge a b := by
    rw [UInt8.lt_iff_toNat_lt, UInt8.le_iff_toNat_le, UInt8.le_iff_toNat_le]
    omega
  toDecidableLE := inferInstance

end WfOpt

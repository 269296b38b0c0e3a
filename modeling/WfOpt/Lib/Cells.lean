import Mathlib

/-!
# Loops over cells

A column of a chunk is computed cell by cell, by a loop with a state that is carried from one cell to the next,
without errors (`scanCells`) or with cells that may fail (`tryCells`). An invariant of the state that every cell
keeps gives what holds of all the cells (`scanCells_spec`, `tryCells_spec`). The values are then stored in the
column, whose other cells stay as they are (`storeCells`).
-/

namespace WfOpt

open List

variable {σ ε α : Type*}

/-- The loop over `n` cells from `i` on: the state after it, and the values of the cells. -/
def scanCells (f : ℕ → σ → σ × α) : (n i : ℕ) → σ → σ × List α
  | 0, _, s => (s, [])
  | n + 1, i, s =>
    let (s, v) := f i s
    let (s, vs) := scanCells f n (i + 1) s
    (s, v :: vs)

/-- The loop over `n` cells from `i` on, until one fails. -/
def tryCells (f : ℕ → σ → Except ε (σ × α)) : (n i : ℕ) → σ → Except ε (σ × List α)
  | 0, _, s => .ok (s, [])
  | n + 1, i, s => do
    let (s, v) ← f i s
    let (s, vs) ← tryCells f n (i + 1) s
    return (s, v :: vs)

/-- The values are stored from the first cell on. -/
def storeCells (column : ℕ → α) (vs : List α) : ℕ → α := fun i => vs.getD i (column i)

/-! ## Stored values -/

theorem storeCells_of_lt {column : ℕ → α} {vs : List α} {i : ℕ} (h : i < vs.length) :
    storeCells column vs i = vs[i] := getD_eq_getElem vs (column i) h

theorem storeCells_of_le {column : ℕ → α} {vs : List α} {i : ℕ} (h : vs.length ≤ i) :
    storeCells column vs i = column i := getD_eq_default vs (column i) h

theorem storeCells_map {column f : ℕ → α} {n i : ℕ} (h : i < n) : storeCells column ((range n).map f) i = f i := by
  rw [storeCells_of_lt (by rwa [length_map, length_range]), getElem_map, getElem_range]

/-! ## Invariants -/

section Invariants

variable {I : ℕ → σ → Prop} {Q : ℕ → α → Prop}

/-- If a cell keeps the invariant and has the property, all cells have it. -/
theorem scanCells_spec {f : ℕ → σ → σ × α} : ∀ {n i : ℕ} {s : σ},
    I i s → (∀ j t, i ≤ j → j < i + n → I j t → I (j + 1) (f j t).1 ∧ Q j (f j t).2) →
      I (i + n) (scanCells f n i s).1 ∧ (scanCells f n i s).2.length = n ∧
        ∀ k (h : k < (scanCells f n i s).2.length), Q (i + k) (scanCells f n i s).2[k]
  | 0, _, _, hinv, _ => ⟨hinv, rfl, fun _ h => absurd h (Nat.not_lt_zero _)⟩
  | n + 1, i, s, hinv, hstep => by
    obtain ⟨hnx, hpost⟩ := hstep i s le_rfl (Nat.lt_add_of_pos_right n.succ_pos) hinv
    obtain ⟨hlst, hlen, hall⟩ := scanCells_spec (n := n) hnx fun j t hij hj =>
      hstep j t (Nat.le_of_succ_le hij) (by omega)
    refine ⟨?_, congrArg (· + 1) hlen, ?_⟩
    · rwa [Nat.add_assoc, Nat.add_comm 1 n] at hlst
    · rintro (_ | k) hk
      · exact hpost
      · have hk' := hall k (Nat.lt_of_succ_lt_succ hk)
        rwa [Nat.add_assoc, Nat.add_comm 1 k] at hk'

/-- If no cell fails, keeps the invariant and has the property, the loop does not fail and all cells
    have it. -/
theorem tryCells_spec {f : ℕ → σ → Except ε (σ × α)} : ∀ {n i : ℕ} {s : σ},
    I i s → (∀ j t, i ≤ j → j < i + n → I j t → ∃ t' v, f j t = .ok (t', v) ∧ I (j + 1) t' ∧ Q j v) →
      ∃ s' vs, tryCells f n i s = .ok (s', vs) ∧ I (i + n) s' ∧ vs.length = n ∧
        ∀ k (h : k < vs.length), Q (i + k) vs[k]
  | 0, _, s, hinv, _ => ⟨s, [], rfl, hinv, rfl, fun _ h => absurd h (Nat.not_lt_zero _)⟩
  | n + 1, i, s, hinv, hstep => by
    obtain ⟨t, v, hf, hnx, hpost⟩ := hstep i s le_rfl (Nat.lt_add_of_pos_right n.succ_pos) hinv
    obtain ⟨s', vs, hrun, hlst, hlen, hall⟩ := tryCells_spec (n := n) hnx fun j t hij hj =>
      hstep j t (Nat.le_of_succ_le hij) (by omega)
    refine ⟨s', v :: vs, ?_, ?_, congrArg (· + 1) hlen, ?_⟩
    · rw [tryCells, hf]
      simp only [bind, Except.bind, hrun]
      rfl
    · rwa [Nat.add_assoc, Nat.add_comm 1 n] at hlst
    · rintro (_ | k) hk
      · exact hpost
      · have hk' := hall k (Nat.lt_of_succ_lt_succ hk)
        rwa [Nat.add_assoc, Nat.add_comm 1 k] at hk'

end Invariants

/-- If a cell fails whatever the state, and cells do not fail in another way, the loop fails. -/
theorem tryCells_error {f : ℕ → σ → Except ε (σ × α)} {e : ε} : ∀ {n i : ℕ} {s : σ},
    (∀ j t, i ≤ j → j < i + n → (∃ t' v, f j t = .ok (t', v)) ∨ f j t = .error e) →
    (∃ j, i ≤ j ∧ j < i + n ∧ ∀ t, f j t = .error e) → tryCells f n i s = .error e
  | 0, i, s, _, ⟨j, hi, hj, _⟩ => absurd hi (not_le.2 hj)
  | n + 1, i, s, hcells, ⟨j, hi, hj, hfail⟩ => by
    rw [tryCells]
    simp only [bind, Except.bind]
    rcases hcells i s le_rfl (Nat.lt_add_of_pos_right n.succ_pos) with ⟨t, v, hf⟩ | hf
    · have hne : i ≠ j := by
        rintro rfl
        rw [hfail s] at hf
        cases hf
      have hrst := tryCells_error (n := n) (i := i + 1) (s := t)
        (fun j t hij hj => hcells j t (Nat.le_of_succ_le hij) (by omega))
        ⟨j, lt_of_le_of_ne hi hne, by omega, hfail⟩
      rw [hf]
      simp only [hrst]
    · rw [hf]

end WfOpt

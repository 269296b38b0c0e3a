import Mathlib

/-!
# Balanced parts

The positions `0 .. total - 1` are cut into `n` consecutive parts that differ in length by at most one, the longer
ones first. The part of a position is computed from where the shorter parts start (`part`): it is the one between
whose starts the position is (`part_eq_iff`), the parts are in order (`part_mono`) and have their lengths
(`card_part`).
-/

namespace WfOpt

open Finset

namespace BalancedParts

variable (total n : ℕ)

/-- The length of a part. -/
def length (b : ℕ) : ℕ := total / n + if b < total % n then 1 else 0

/-- Where a part starts. -/
def start (b : ℕ) : ℕ := b * (total / n) + min b (total % n)

/-- Where the shorter parts start. -/
def shortStart : ℕ := total % n * (total / n + 1)

/-- The part of a position. -/
def part (i : ℕ) : ℕ := if i < shortStart total n then i / (total / n + 1)
  else total % n + (i - shortStart total n) / (total / n)

variable {total n : ℕ}

theorem start_zero : start total n 0 = 0 := by
  rw [start, Nat.zero_mul, Nat.zero_min]

theorem start_succ (b : ℕ) : start total n (b + 1) = start total n b + length total n b := by
  rw [start, start, length, Nat.succ_mul]
  by_cases hb : b < total % n
  · rw [if_pos hb, min_eq_left hb, min_eq_left hb.le]
    ring
  · rw [if_neg hb, min_eq_right (not_lt.1 hb), min_eq_right ((not_lt.1 hb).trans (Nat.le_succ b))]
    ring

/-- The last part ends with the last position. -/
theorem start_last (hn : 0 < n) : start total n n = total := by
  rw [start, min_eq_right (Nat.mod_lt total hn).le]
  exact Nat.div_add_mod total n

theorem start_mono : Monotone (start total n) := monotone_nat_of_le_succ fun b => by
    rw [start_succ]
    exact Nat.le_add_right _ _

theorem start_of_le {b : ℕ} (hb : b ≤ total % n) : start total n b = b * (total / n + 1) := by
  rw [start, min_eq_left hb]
  ring

/-- The short parts follow the long ones. -/
theorem start_add (b : ℕ) : start total n (total % n + b) = shortStart total n + b * (total / n) := by
  rw [start, shortStart, min_eq_right (Nat.le_add_right _ _)]
  ring

section

variable (hn : 0 < n) (htot : n ≤ total)

include hn htot

/-- The part of a position is the one that has started, while the next one has not. -/
theorem part_eq_iff {i b : ℕ} :
    part total n i = b ↔ start total n b ≤ i ∧ i < start total n (b + 1) := by
  have hsz : 0 < total / n := Nat.div_pos htot hn
  have hshort : start total n (total % n) = shortStart total n := start_of_le le_rfl
  rw [part]
  by_cases hi : i < shortStart total n
  · rw [if_pos hi]
    rcases lt_or_ge b (total % n) with hb | hb
    · -- a long part
      rw [start_of_le hb.le, start_of_le hb, Nat.div_eq_iff (Nat.add_one_pos _), Nat.add_one_mul b]
      omega
    · refine iff_of_false (fun h => ?_) fun h => ?_
      · have hlt : i / (total / n + 1) < total % n := (Nat.div_lt_iff_lt_mul (Nat.succ_pos _)).2 hi
        exact absurd (h ▸ hb) (not_le.2 hlt)
      · have hle : start total n _ ≤ start total n _ := start_mono hb
        omega
  · rw [if_neg hi]
    rcases lt_or_ge b (total % n) with hb | hb
    · refine iff_of_false (fun h => ?_) fun h => ?_
      · exact absurd (h ▸ Nat.le_add_right _ _) (not_le.2 hb)
      · have hle : start total n _ ≤ start total n _ := start_mono (Nat.add_one_le_of_lt hb)
        omega
    · -- a short part
      obtain ⟨c, rfl⟩ := Nat.exists_eq_add_of_le hb
      rw [Nat.add_assoc, start_add, start_add, Nat.add_right_inj, Nat.div_eq_iff hsz, Nat.succ_mul]
      omega

theorem part_lt_iff {i : ℕ} : part total n i < n ↔ i < total := by
  obtain ⟨hst, hend⟩ := (part_eq_iff hn htot).1 (rfl : part total n i = part total n i)
  constructor
  · intro h
    calc i < start total n (part total n i + 1) := hend
      _ ≤ start total n n := start_mono h
      _ = total := start_last hn
  · intro h
    by_contra hle
    have hmono : start total n _ ≤ start total n _ := start_mono (not_lt.1 hle)
    rw [start_last hn] at hmono
    omega

theorem part_zero : part total n 0 = 0 := by
  refine (part_eq_iff hn htot).2 ⟨start_zero.le, ?_⟩
  rw [start_succ, start_zero, length]
  have := Nat.div_pos htot hn
  omega

theorem part_mono : Monotone (part total n) := by
  intro i j hij
  by_contra hlt
  have hi := (part_eq_iff hn htot).1 (rfl : part total n i = part total n i)
  have hj := (part_eq_iff hn htot).1 (rfl : part total n j = part total n j)
  have hmono : start total n _ ≤ start total n _ := start_mono (Nat.add_one_le_of_lt (not_le.1 hlt))
  omega

end

/-- A part has as many positions as its length says. -/
theorem card_part (hn : 0 < n) (htot : n ≤ total) {b : ℕ} (hb : b < n) :
    ((range total).filter fun i => part total n i = b).card = length total n b := by
  have hpositions : ((range total).filter fun i => part total n i = b) =
      Finset.Ico (start total n b) (start total n (b + 1)) := by
    ext i
    rw [mem_filter, mem_range, mem_Ico, part_eq_iff hn htot, and_iff_right_iff_imp]
    intro h
    calc i < start total n (b + 1) := h.2
      _ ≤ start total n n := start_mono hb
      _ = total := start_last hn
  rw [hpositions, Nat.card_Ico, start_succ, Nat.add_sub_cancel_left]

theorem exists_part_eq (hn : 0 < n) (htot : n ≤ total) {b : ℕ} (hb : b < n) : ∃ i < total, part total n i = b := by
  have hst : part total n (start total n b) = b := by
    refine (part_eq_iff hn htot).2 ⟨le_rfl, ?_⟩
    rw [start_succ, length]
    have := Nat.div_pos htot hn
    omega
  exact ⟨start total n b, (part_lt_iff hn htot).1 (hst.symm ▸ hb), hst⟩

theorem length_antitone : Antitone (length total n) := by
  intro b c hbc
  refine Nat.add_le_add_left ?_ _
  split_ifs <;> omega

end BalancedParts

end WfOpt

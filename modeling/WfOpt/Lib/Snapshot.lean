import Mathlib

/-!
# Snapshots

Transactions write values of keys, and are committed one after another. The *history* has what each of
them wrote, the latest commit first. A *snapshot* of a time has, for each key, the value of the last
commit before this time that wrote the key (`valueAt`).

A snapshot depends only on the commits that wrote the key (`valueAt_eq`).
-/

namespace WfOpt

open List

/-- A committed transaction: when it was committed and started, and what it wrote. -/
structure Commit (κ α : Type*) where
  id : ℕ
  start : ℕ
  writes : κ → Option α

variable {κ α : Type*}

/-- The value of a key in the snapshot of a time. -/
@[simp] def valueAt (base : κ → α) : List (Commit κ α) → ℕ → κ → α
  | [], _, k => base k
  | c :: history, time, k =>
    if c.id < time then (c.writes k).getD (valueAt base history time k) else valueAt base history time k

/-- Later commits have larger ids. -/
def Descending (history : List (Commit κ α)) : Prop := history.Pairwise fun c d => d.id < c.id

/-- Commits that wrote the same key did not overlap: the later one started after the earlier one was
    committed. -/
def Exclusive (history : List (Commit κ α)) : Prop :=
  history.Pairwise fun c d => ∀ k, c.writes k ≠ none → d.writes k ≠ none → d.id < c.start

variable {base : κ → α} {history : List (Commit κ α)} {c : Commit κ α} {time time' : ℕ} {k : κ}

theorem valueAt_cons_of_le (h : time ≤ c.id) :
    valueAt base (c :: history) time k = valueAt base history time k := if_neg (not_lt.2 h)

theorem valueAt_cons_of_none (h : c.writes k = none) :
    valueAt base (c :: history) time k = valueAt base history time k := by
  rw [valueAt, h, Option.getD_none, ite_self]

theorem valueAt_cons_of_some {x : α} (hlt : c.id < time) (h : c.writes k = some x) :
    valueAt base (c :: history) time k = x := by
  rw [valueAt, if_pos hlt, h, Option.getD_some]

/-- Snapshots agree on a key if nobody wrote it between their times. -/
theorem valueAt_eq (hle : time ≤ time') (h : ∀ c ∈ history, time ≤ c.id → c.id < time' → c.writes k = none) :
    valueAt base history time k = valueAt base history time' k := by
  induction history with
  | nil => rfl
  | cons c history ih =>
    have ih := ih fun d hd => h d (mem_cons_of_mem _ hd)
    by_cases hlt : c.id < time
    · rw [valueAt, valueAt, if_pos hlt, if_pos (hlt.trans_le hle), ih]
    · rw [valueAt_cons_of_le (not_lt.1 hlt), ih]
      by_cases hlt' : c.id < time'
      · exact (valueAt_cons_of_none (h c mem_cons_self (not_lt.1 hlt) hlt')).symm
      · exact (valueAt_cons_of_le (not_lt.1 hlt')).symm

/-- What nobody wrote has its value of the beginning. -/
theorem valueAt_eq_base (h : ∀ c ∈ history, c.writes k = none) (time : ℕ) :
    valueAt base history time k = base k := by
  induction history with
  | nil => rfl
  | cons c history ih =>
    rw [valueAt_cons_of_none (h c mem_cons_self), ih fun d hd => h d (mem_cons_of_mem _ hd)]

/-- The part of a commit that is of some keys. -/
def Commit.restrict {ι : Type*} (f : ι → κ) (c : Commit κ α) : Commit ι α := ⟨c.id, c.start, fun i => c.writes (f i)⟩

theorem valueAt_restrict {ι : Type*} (f : ι → κ) (base : κ → α) (history : List (Commit κ α)) (time : ℕ)
    (i : ι) : valueAt (fun i => base (f i)) (history.map (Commit.restrict f)) time i =
      valueAt base history time (f i) := by
  induction history with
  | nil => rfl
  | cons c history ih =>
    rw [map_cons, valueAt, valueAt, ih]
    rfl

end WfOpt

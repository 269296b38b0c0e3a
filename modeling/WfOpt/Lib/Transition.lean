import Mathlib

/-!
# Transition systems and interleavings

* A *trace* of threads whose programs are lists of steps goes through the steps of each thread in order
  (`Interleaves`).
* In a transition system, an invariant that holds initially and is preserved by every step holds of all *reachable*
  states (`Reachable.invariant`).

What the threads have together is a sum, of which a step changes one summand (`sum_update_add`). If what a thread
gives goes to a shared state, the sum with the latter is conserved (`sum_update_conserved`).
-/

namespace WfOpt

open List Function Finset

/-! ## Interleavings -/

section Interleaves

variable {α : Type*}

/-- The trace interleaves the steps of `n` threads. -/
structure Interleaves (n : ℕ) (steps : ℕ → List α) (trace : List (ℕ × α)) : Prop where
  thread_lt : ∀ a ∈ trace, a.1 < n
  thread_steps : ∀ i < n, (trace.filter fun a => a.1 = i).map Prod.snd = steps i

variable {n : ℕ} {steps : ℕ → List α} {trace : List (ℕ × α)}

theorem Interleaves.mem_steps (h : Interleaves n steps trace) {a : ℕ × α} (ha : a ∈ trace) : a.2 ∈ steps a.1 := by
  rw [← h.thread_steps a.1 (h.thread_lt a ha)]
  exact mem_map_of_mem (mem_filter.2 ⟨ha, decide_eq_true rfl⟩)

/-- The steps of a trace that only one thread has are in the order of that thread. -/
theorem Interleaves.filter_eq (h : Interleaves n steps trace) {p : α → Bool} {j : ℕ} (hj : j < n)
    (hp : ∀ i < n, ∀ a ∈ steps i, p a = true → i = j) :
    (trace.map Prod.snd).filter p = (steps j).filter p := by
  rw [← h.thread_steps j hj, List.filter_map, List.filter_map, List.filter_filter]
  refine congrArg (List.map Prod.snd) (List.filter_congr fun a ha => ?_)
  cases hpa : p a.2 with
  | false => simp [hpa]
  | true =>
    have := hp a.1 (h.thread_lt a ha) a.2 (h.mem_steps ha) hpa
    simp [this]

end Interleaves

/-! ## Reachable states -/

section Reachable

variable {σ : Type*}

/-- The states reachable from `init` by the steps of a transition system. -/
inductive Reachable (init : σ → Prop) (next : σ → σ → Prop) : σ → Prop
  | start {s : σ} : init s → Reachable init next s
  | step {s s' : σ} : Reachable init next s → next s s' → Reachable init next s'

variable {init : σ → Prop} {next : σ → σ → Prop} {inv : σ → Prop}

/-- An invariant that holds initially, and is preserved by every step, holds in every reachable state. -/
theorem Reachable.invariant (hinit : ∀ s, init s → inv s)
    (hstep : ∀ s s', Reachable init next s → inv s → next s s' → inv s') {s : σ}
    (h : Reachable init next s) : inv s := by
  induction h with
  | start h => exact hinit _ h
  | step hr hn ih => exact hstep _ _ hr ih hn

/-- Whether moves pass a check, one after the other. -/
def passes {α : Type*} (move : σ → α → σ) (check : σ → α → Bool) : List α → σ → Bool
  | [], _ => true
  | a :: moves, s => check s a && passes move check moves (move s a)

/-- Moves that pass a check are steps, and lead to a reachable state. -/
theorem Reachable.foldl {α : Type*} {move : σ → α → σ} {check : σ → α → Bool}
    (hchk : ∀ s a, check s a = true → next s (move s a)) {s : σ} (h : Reachable init next s) {moves : List α}
    (hmove : passes move check moves s = true) : Reachable init next (moves.foldl move s) := by
  induction moves generalizing s with
  | nil => exact h
  | cons a moves ih =>
    obtain ⟨hs, hmove⟩ := Bool.and_eq_true_iff.1 hmove
    exact ih (h.step (hchk s a hs)) hmove

end Reachable

/-! ## Sums over threads -/

section Sum

variable {ι σ M : Type*} [Fintype ι] [DecidableEq ι]

theorem sum_update_add [AddCommMonoid M] (f : σ → M) (x : ι → σ) (i : ι) (y : σ) :
    ∑ j, f (update x i y j) + f (x i) = ∑ j, f (x j) + f y := by
  have hoths : ∀ j ∈ univ.erase i, f (update x i y j) = f (x j) := by
    intro j hj
    rw [update_of_ne (ne_of_mem_erase hj)]
  rw [← sum_erase_add _ _ (mem_univ i), sum_congr rfl hoths,
    update_self, ← sum_erase_add univ (fun j => f (x j)) (mem_univ i),
    add_right_comm]

theorem sum_update_conserved [AddCancelCommMonoid M] {f : σ → M} {x : ι → σ} {i : ι} {y : σ}
    {g g' : M} (h : f y + g' = f (x i) + g) :
    ∑ j, f (update x i y j) + g' = ∑ j, f (x j) + g := by
  refine add_right_cancel (b := f (x i)) ?_
  calc
    ∑ j, f (update x i y j) + g' + f (x i)
      = ∑ j, f (x j) + (f y + g') := by rw [add_right_comm, sum_update_add, add_assoc]
    _ = ∑ j, f (x j) + g + f (x i) := by rw [h, ← add_assoc, add_right_comm]

end Sum

end WfOpt

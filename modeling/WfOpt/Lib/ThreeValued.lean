import Mathlib

/-!
# Three-valued logic

Truth values are `some true`, `some false` and `none` for unknown. The conjunction and the disjunction of lists of
them are those of a distributive lattice: what all members of a disjunction share can be factored out
(`any_all_append`).
-/

namespace ThreeValued

open List

/-- The conjunction of the values -/
def all (values : List (Option Bool)) : Option Bool :=
  if some false ∈ values then some false else if none ∈ values then none else some true

/-- The disjunction of the values -/
def any (values : List (Option Bool)) : Option Bool :=
  if some true ∈ values then some true else if none ∈ values then none else some false

variable {a b : Option Bool} {values values' : List (Option Bool)}

theorem eq_of_iff (htrue : a = some true ↔ b = some true) (hfls : a = some false ↔ b = some false) : a = b := by
  rcases a with _ | _ | _ <;> rcases b with _ | _ | _ <;> simp_all

theorem all_eq_false : all values = some false ↔ some false ∈ values := by
  rw [all]
  split_ifs with h h' <;> simp [h]

theorem all_eq_true : all values = some true ↔ ∀ a ∈ values, a = some true := by
  rw [all]
  split_ifs with h h'
  · exact iff_of_false (fun h => nomatch h) fun hall => nomatch hall _ h
  · exact iff_of_false (fun h => nomatch h) fun hall => nomatch hall _ h'
  · refine iff_of_true rfl fun a ha => ?_
    rcases a with _ | _ | _
    · exact absurd ha h'
    · exact absurd ha h
    · rfl

theorem any_eq_true : any values = some true ↔ some true ∈ values := by
  rw [any]
  split_ifs with h h' <;> simp [h]

theorem any_eq_false : any values = some false ↔ ∀ a ∈ values, a = some false := by
  rw [any]
  split_ifs with h h'
  · exact iff_of_false (fun h => nomatch h) fun hall => nomatch hall _ h
  · exact iff_of_false (fun h => nomatch h) fun hall => nomatch hall _ h'
  · refine iff_of_true rfl fun a ha => ?_
    rcases a with _ | _ | _
    · exact absurd ha h'
    · rfl
    · exact absurd ha h

/-- Only which values occur matters. -/
theorem all_congr (h : ∀ a, a ∈ values ↔ a ∈ values') : all values = all values' := by
  simp only [all, h]

theorem any_congr (h : ∀ a, a ∈ values ↔ a ∈ values') : any values = any values' := by
  simp only [any, h]

@[simp] theorem all_singleton (a : Option Bool) : all [a] = a := by
  rcases a with _ | _ | _ <;> rfl

@[simp] theorem any_singleton (a : Option Bool) : any [a] = a := by
  rcases a with _ | _ | _ <;> rfl

theorem all_pair (a b : Bool) : all [some a, some b] = some (a && b) := by
  cases a <;> cases b <;> rfl

theorem any_pair (a b : Bool) : any [some a, some b] = some (a || b) := by
  cases a <;> cases b <;> rfl

/-- A disjunction all of whose members are conjunctions with the same `common` part -/
theorem any_all_append {common : List (Option Bool)} {branches : List (List (Option Bool))} (h : branches ≠ []) :
    any (branches.map fun rest => all (common ++ rest)) = all (common ++ [any (branches.map all)]) := by
  refine eq_of_iff ?_ ?_
  · simp only [any_eq_true, all_eq_true, mem_map, mem_append, mem_singleton]
    constructor
    · rintro ⟨rest, hrst, hall⟩ a (ha | rfl)
      · exact hall a (.inl ha)
      · exact any_eq_true.2 (mem_map.2 ⟨rest, hrst, all_eq_true.2 fun a ha => hall a (.inr ha)⟩)
    · intro hall
      obtain ⟨rest, hrst, htrue⟩ := mem_map.1 (any_eq_true.1 (hall _ (.inr rfl)))
      exact ⟨rest, hrst, fun a ha => ha.elim (fun ha => hall a (.inl ha)) (all_eq_true.1 htrue a)⟩
  · simp only [any_eq_false, all_eq_false, forall_mem_map, mem_append, mem_singleton]
    constructor
    · intro hall
      by_cases hcomn : some false ∈ common
      · exact .inl hcomn
      · refine .inr (any_eq_false.2 (forall_mem_map.2 fun rest hrst => ?_)).symm
        exact all_eq_false.2 ((hall rest hrst).resolve_left hcomn)
    · rintro (hcomn | hany) rest hrst
      · exact .inl hcomn
      · exact .inr (all_eq_false.1 (forall_mem_map.1 (any_eq_false.1 hany.symm) rest hrst))

/-- A branch with nothing else makes the other branches useless. -/
theorem any_all_append_nil {common : List (Option Bool)} {branches : List (List (Option Bool))} (h : [] ∈ branches) :
    any (branches.map fun rest => all (common ++ rest)) = all common := by
  have htrue : any (branches.map all) = some true := any_eq_true.2 (mem_map.2 ⟨[], h, rfl⟩)
  rw [any_all_append (ne_nil_of_mem h), htrue]
  refine eq_of_iff ?_ ?_
  · simp only [all_eq_true, forall_mem_append, forall_mem_singleton, and_true]
  · simp only [all_eq_false, mem_append, mem_singleton, reduceCtorEq, Option.some.injEq, or_false]

end ThreeValued

import Mathlib

/-!
# The smallest values of a sequence

A max-heap that is kept at no more than `k` values, by removing its largest value, holds the `k` smallest of all
values seen (`KSmallest`). Its largest value tells whether `k` of them are smaller than a new value
(`KSmallest.lt_iff`). The heap is given by its values in decreasing order.
-/

namespace WfOpt

open List

variable {β : Type*} [LinearOrder β] {k : ℕ} {seen values : List β} {v : β}

/-- A value is added to a heap. -/
def heapPush (values : List β) (v : β) : List β := values.orderedInsert (· ≥ ·) v

/-- The heap has the `k` smallest of the values seen. -/
structure KSmallest (k : ℕ) (seen values : List β) : Prop where
  sorted : values.Pairwise (· ≥ ·)
  length_eq : values.length = min k seen.length
  smallest : ∃ rest, seen.Perm (values ++ rest) ∧ ∀ r ∈ rest, ∀ w ∈ values, w ≤ r

theorem heapPush_perm (values : List β) (v : β) : (heapPush values v).Perm (v :: values) := perm_orderedInsert _ _ _

theorem heapPush_sorted (h : values.Pairwise (· ≥ ·)) : (heapPush values v).Pairwise (· ≥ ·) :=
  List.Pairwise.orderedInsert v values h

theorem length_heapPush (values : List β) (v : β) : (heapPush values v).length = values.length + 1 :=
  orderedInsert_length _ _ _

/-- The largest value of the heap after a value is added. -/
theorem head?_heapPush (values : List β) (v : β) :
    (heapPush values v).head? = some (values.head?.elim v (max · v)) := by
  cases values with
  | nil => rfl
  | cons t values =>
    rw [heapPush, orderedInsert_cons]
    split
    next h => simp [max_eq_right h]
    next h => simp [max_eq_left (le_of_not_ge h)]

namespace KSmallest

theorem nil : KSmallest k ([] : List β) [] := ⟨.nil, by simp, [], .refl _, fun _ h => absurd h not_mem_nil⟩

theorem push (h : KSmallest k seen values) (hlt : values.length < k) :
    KSmallest k (seen ++ [v]) (heapPush values v) := by
  obtain ⟨hs, hlen, rest, hperm, -⟩ := h
  have hrst : rest = [] := by
    have := hperm.length_eq
    rw [length_append] at this
    exact length_eq_zero_iff.1 (by omega)
  subst hrst
  rw [append_nil] at hperm
  refine ⟨heapPush_sorted hs, ?_, [], ?_, fun _ hr => absurd hr not_mem_nil⟩
  · rw [length_heapPush, length_append, length_singleton]
    omega
  · rw [append_nil]
    refine .trans ?_ (heapPush_perm values v).symm
    exact perm_append_comm.trans (hperm.cons v)

variable {t : β}

/-- With `k` values in the heap, a value that is not beyond the largest one
    replaces it. -/
theorem push_pop (h : KSmallest k seen (t :: values)) (hlen : values.length + 1 = k) (hle : v ≤ t) :
    KSmallest k (seen ++ [v]) (heapPush (t :: values) v).tail := by
  obtain ⟨hs, hlen', rest, hperm, hrst⟩ := h
  have hsort := heapPush_sorted (v := v) hs
  have hhead : (heapPush (t :: values) v).head? = some t := by
    rw [head?_heapPush]
    simp [hle]
  obtain ⟨l, hl⟩ : ∃ l, heapPush (t :: values) v = t :: l := by
    cases hp : heapPush (t :: values) v with
    | nil => simp [hp] at hhead
    | cons a l => exact ⟨l, by simpa [hp] using hhead⟩
  have hpush := heapPush_perm (t :: values) v
  rw [hl] at hsort hpush ⊢
  rw [tail_cons]
  have hlperm : l.Perm (v :: values) := (hpush.trans (.swap t v values)).cons_inv
  refine ⟨hsort.of_cons, ?_, t :: rest, ?_, fun r hr w hw => ?_⟩
  · rw [hlperm.length_eq, length_append]
    simp only [length_cons] at *
    omega
  · have h₁ : (seen ++ [v]).Perm (v :: (t :: values ++ rest)) := perm_append_comm.trans (hperm.cons v)
    have h₂ : (v :: (t :: values ++ rest)).Perm (t :: l ++ rest) := hpush.symm.append_right rest
    exact (h₁.trans h₂).trans perm_middle.symm
  · have hwt : w ≤ t := rel_of_pairwise_cons hsort hw
    rcases mem_cons.1 hr with rfl | hr
    · exact hwt
    · exact hwt.trans (hrst r hr t mem_cons_self)

/-- With `k` values in the heap, a value beyond the largest one can be left out. -/
theorem skip (h : KSmallest k seen (t :: values)) (hlen : values.length + 1 = k) (hlt : t < v) :
    KSmallest k (seen ++ [v]) (t :: values) := by
  obtain ⟨hs, hlen', rest, hperm, hrst⟩ := h
  refine ⟨hs, ?_, rest ++ [v], ?_, fun r hr w hw => ?_⟩
  · rw [length_append]
    simp only [length_cons] at *
    omega
  · rw [← append_assoc]
    exact hperm.append_right [v]
  · rcases mem_append.1 hr with hr | hr
    · exact hrst r hr w hw
    · rw [mem_singleton.1 hr]
      rcases mem_cons.1 hw with rfl | hw
      · exact hlt.le
      · exact (rel_of_pairwise_cons hs hw).trans hlt.le

/-- A value beyond the largest of `k` values in the heap is one that comes after
    `k` of the values seen. -/
theorem lt_iff (h : KSmallest k seen (t :: values)) (hlen : values.length + 1 = k) :
    t < v ↔ k ≤ seen.countP (· < v) := by
  obtain ⟨hs, -, rest, hperm, hrst⟩ := h
  rw [hperm.countP_eq, countP_append]
  constructor
  · intro hlt
    have hall : (t :: values).countP (· < v) = (t :: values).length := countP_eq_length.2 fun w hw => by
        refine decide_eq_true ?_
        rcases mem_cons.1 hw with rfl | hw
        · exact hlt
        · exact (rel_of_pairwise_cons hs hw).trans_lt hlt
    rw [hall, length_cons]
    omega
  · intro hk
    by_contra hle
    rw [not_lt] at hle
    have hz : rest.countP (· < v) = 0 := countP_eq_zero.2 fun r hr => by
      simpa using hle.trans (hrst r hr t mem_cons_self)
    have hlt : (t :: values).countP (· < v) = values.countP (· < v) := countP_cons_of_neg (by simpa using hle)
    have := countP_le_length (p := fun w => decide (w < v)) (l := values)
    omega

/-- Below `k` values in the heap, no value comes after `k` of those seen. -/
theorem countP_lt (h : KSmallest k seen values) (hlt : values.length < k) (v : β) : seen.countP (· < v) < k := by
  have := countP_le_length (p := fun w => decide (w < v)) (l := seen)
  have := h.length_eq
  omega

end KSmallest

end WfOpt

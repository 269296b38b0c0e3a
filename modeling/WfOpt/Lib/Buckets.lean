import Mathlib

/-!
# Buckets

Items are distributed over a list of buckets by an index that is computed from each of
them. If all indices are in range, no item is lost or duplicated
(`flatten_distribute`), and every item is in the bucket of its index
(`Placed.distribute`), so that items with the same index are in the same bucket.
-/

namespace WfOpt

open List

variable {α : Type*}

/-- Items are added to a bucket. -/
def addTo (b : List (List α)) (i : ℕ) (xs : List α) : List (List α) := b.modify i (· ++ xs)

/-- Items are added to the buckets of their indices, one by one. -/
def distribute (f : α → ℕ) (b : List (List α)) (xs : List α) : List (List α) :=
  xs.foldl (fun b x => addTo b (f x) [x]) b

/-- Every item is in the bucket of its index. -/
def Placed (f : α → ℕ) (b : List (List α)) : Prop := ∀ i, ∀ x ∈ b.getD i [], f x = i

variable {f : α → ℕ} {b : List (List α)} {i : ℕ} {xs : List α}

@[simp] theorem length_addTo : (addTo b i xs).length = b.length := length_modify ..

theorem getD_addTo (j : ℕ) :
    (addTo b i xs).getD j [] = if i = j ∧ j < b.length then b.getD j [] ++ xs else b.getD j [] := by
  rw [addTo, getD_eq_getElem?_getD, getElem?_modify, getD_eq_getElem?_getD]
  rcases Nat.lt_or_ge j b.length with hj | hj
  · by_cases hij : i = j
    · simp [hj]
    · simp [hij]
  · simp [Nat.not_lt.2 hj]

theorem getD_set_nil (j : ℕ) : (b.set i []).getD j [] = if i = j then [] else b.getD j [] := by
  rw [getD_eq_getElem?_getD, getElem?_set, getD_eq_getElem?_getD]
  split_ifs <;> rfl

theorem flatten_addTo (hi : i < b.length) : (addTo b i xs).flatten.Perm (b.flatten ++ xs) := by
  have hspl : b = b.take i ++ b[i] :: b.drop (i + 1) := by simp
  rw [addTo, modify_eq_take_cons_drop hi]
  conv_rhs => rw [hspl]
  simp only [flatten_append, flatten_cons, append_assoc]
  exact ((perm_append_comm).append_left _).append_left _

theorem Placed.addTo (h : Placed f b) (hf : ∀ x ∈ xs, f x = i) : Placed f (addTo b i xs) := by
  intro j x hx
  rw [getD_addTo] at hx
  split_ifs at hx with hij
  · rcases mem_append.1 hx with hx | hx
    · exact h j x hx
    · exact (hf x hx).trans hij.1
  · exact h j x hx

theorem Placed.set_nil (h : Placed f b) : Placed f (b.set i []) := by
  intro j x hx
  rw [getD_set_nil] at hx
  split_ifs at hx
  · exact absurd hx not_mem_nil
  · exact h j x hx

@[simp] theorem length_distribute : (distribute f b xs).length = b.length := by
  induction xs generalizing b with
  | nil => rfl
  | cons x xs ih => exact ih.trans length_addTo

theorem flatten_distribute (h : ∀ x ∈ xs, f x < b.length) : (distribute f b xs).flatten.Perm (b.flatten ++ xs) := by
  induction xs generalizing b with
  | nil => simp [distribute]
  | cons x xs ih =>
    have hx := h x mem_cons_self
    have hrst := ih (b := addTo b (f x) [x]) fun y hy => by
      rw [length_addTo]
      exact h y (mem_cons_of_mem x hy)
    calc
      (distribute f b (x :: xs)).flatten.Perm ((WfOpt.addTo b (f x) [x]).flatten ++ xs) := hrst
      _ |>.Perm (b.flatten ++ [x] ++ xs) := (flatten_addTo hx).append_right xs
      _ |>.Perm (b.flatten ++ x :: xs) := by rw [append_assoc]; rfl

theorem Placed.distribute (h : Placed f b) : Placed f (distribute f b xs) := by
  induction xs generalizing b with
  | nil => exact h
  | cons x xs ih => exact ih (h.addTo fun y hy => by rw [mem_singleton.1 hy])

theorem placed_replicate_nil {n : ℕ} : Placed f (replicate n []) := by
  intro i x hx
  rcases Nat.lt_or_ge i n with hi | hi
  · rw [getD_eq_getElem _ _ (by simpa using hi), getElem_replicate] at hx
    exact absurd hx not_mem_nil
  · rw [getD_eq_default _ _ (by simpa using hi)] at hx
    exact absurd hx not_mem_nil

theorem flatten_zipWith_append {l l' : List (List α)} (h : l.length = l'.length) :
    (zipWith (· ++ ·) l l').flatten.Perm (l.flatten ++ l'.flatten) := by
  induction l generalizing l' with
  | nil => cases l' <;> simp_all
  | cons x l ih =>
    cases l' with
    | nil => simp at h
    | cons y l' =>
      have := ih (by simpa using h)
      simp only [zipWith_cons_cons, flatten_cons, append_assoc]
      refine List.Perm.append_left x ?_
      calc
        (y ++ (zipWith (· ++ ·) l l').flatten).Perm (y ++ (l.flatten ++ l'.flatten)) := this.append_left y
        _ |>.Perm (l.flatten ++ (y ++ l'.flatten)) := perm_append_comm_assoc ..

end WfOpt

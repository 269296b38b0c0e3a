import Mathlib

/-!
# Doubly linked lists

Nodes have pointers to the next and to the previous node. A list of nodes is *linked* if these pointers
are those of the list (`Links.Linked`).

* From the first node on, a walk visits the list (`Links.Linked.walk`).
* A node is inserted behind another one (`Links.Linked.insertAfter`), or unlinked by what its own
  pointers say (`Links.Linked.unlink`).
-/

namespace WfOpt

open List Function Option

/-- The pointers of nodes. -/
structure Links where
  next : ℕ → Option ℕ
  prev : ℕ → Option ℕ

namespace Links

/-- No node points anywhere. -/
def empty : Links := ⟨fun _ => none, fun _ => none⟩

/-- The pointer to the previous node is replaced, if there is a node. -/
def setPrev (k : Links) (node prev : Option ℕ) : Links := match node with
  | none => k
  | some q => { k with prev := update k.prev q prev }

/-- The pointer to the next node is replaced, if there is a node. -/
def setNext (k : Links) (node next : Option ℕ) : Links := match node with
  | none => k
  | some q => { k with next := update k.next q next }

/-- A node `p` is inserted behind `q`. -/
def insertAfter (k : Links) (q p : ℕ) : Links :=
  let k' := (k.setNext (some p) (k.next q)).setPrev (k.next q) (some p)
  (k'.setPrev (some p) (some q)).setNext (some q) (some p)

/-- A node is unlinked: its neighbours point to one another. -/
def unlink (k : Links) (p : ℕ) : Links := (k.setNext (k.prev p) (k.next p)).setPrev (k.next p) (k.prev p)

/-- The nodes from a node on, if there are at most `n`. -/
def walk (k : Links) : ℕ → Option ℕ → Option (List ℕ)
  | _, none => some []
  | 0, some _ => none
  | n + 1, some p => (walk k n (k.next p)).map (p :: ·)

/-- The nodes of a list point to one another, and the last one to nowhere. -/
def Linked (k : Links) : List ℕ → Prop
  | [] => True
  | [p] => k.next p = none
  | p :: q :: l => k.next p = some q ∧ k.prev q = some p ∧ Linked k (q :: l)

variable {k k' : Links} {p q : ℕ} {l : List ℕ}

theorem Linked.next_eq (h : k.Linked (p :: l)) : k.next p = l.head? := by
  cases l with
  | nil => exact h
  | cons q l => exact h.1

theorem Linked.tail (h : k.Linked (p :: l)) : k.Linked l := by
  cases l with
  | nil => trivial
  | cons q l => exact h.2.2

/-- A list is linked by the pointers to the next nodes, and those back. -/
theorem linked_cons : k.Linked (p :: l) ↔ k.next p = l.head? ∧ (∀ q ∈ l.head?, k.prev q = some p) ∧ k.Linked l := by
  cases l with
  | nil => exact ⟨fun h => ⟨h, fun _ hq => absurd hq (by simp), trivial⟩, And.left⟩
  | cons q l =>
    refine ⟨fun h => ⟨h.1, fun r hr => ?_, h.2.2⟩, fun h => ⟨h.1, h.2.1 q rfl, h.2.2⟩⟩
    rw [← some.inj hr]
    exact h.2.1

theorem Linked.walk (l : List ℕ) : ∀ {n : ℕ}, k.Linked l → l.length ≤ n → k.walk n l.head? = some l := by
  induction l with
  | nil =>
    intro n _ _
    cases n <;> rfl
  | cons p l ih =>
    intro n h hn
    cases n with
    | zero => exact absurd hn (Nat.not_succ_le_zero _)
    | succ n =>
      change (k.walk n (k.next p)).map _ = _
      rw [h.next_eq, ih h.tail (Nat.le_of_succ_le_succ hn)]
      rfl

/-- Only the pointers to the next nodes and, but for the first one, those back matter. -/
theorem Linked.congr (l : List ℕ) (hnx : ∀ p ∈ l, k'.next p = k.next p)
    (hprev : ∀ p ∈ l.tail, k'.prev p = k.prev p) (h : k.Linked l) : k'.Linked l := by
  induction l with
  | nil => trivial
  | cons p l ih =>
    rw [linked_cons] at h ⊢
    refine ⟨(hnx p mem_cons_self).trans h.1, fun q hq => ?_, ih (fun q hq => ?_) (fun q hq => ?_) h.2.2⟩
    · rw [hprev q (mem_of_mem_head? hq)]
      exact h.2.1 q hq
    · exact hnx q (mem_cons_of_mem _ hq)
    · exact hprev q (mem_of_mem_tail hq)

/-- Nodes of the list point back to the list. -/
theorem Linked.prev_mem (l : List ℕ) : ∀ {q : ℕ}, k.Linked (q :: l) → p ∈ l → ∃ r ∈ q :: l, k.prev p = some r := by
  induction l with
  | nil => exact fun _ hp => absurd hp not_mem_nil
  | cons r l ih =>
    intro q h hp
    rcases mem_cons.1 hp with rfl | hp
    · exact ⟨q, mem_cons_self, h.2.1⟩
    · obtain ⟨s, hs, hprev⟩ := ih h.tail hp
      exact ⟨s, mem_cons_of_mem _ hs, hprev⟩

/-- Nodes of the list do not point to the first one. -/
theorem Linked.next_mem (l : List ℕ) : ∀ {q r : ℕ}, k.Linked (q :: l) → p ∈ q :: l → k.next p = some r → r ∈ l := by
  induction l with
  | nil =>
    intro q r h hp hr
    rw [mem_singleton.1 hp, h.next_eq] at hr
    exact nomatch hr
  | cons s l ih =>
    intro q r h hp hr
    rcases mem_cons.1 hp with rfl | hp
    · rw [h.next_eq] at hr
      exact some.inj hr ▸ mem_cons_self
    · exact mem_cons_of_mem _ (ih h.tail hp hr)

/-! ## Changes -/

theorem insertAfter_next (k : Links) (q p : ℕ) {r : ℕ} : (k.insertAfter q p).next r =
    if r = q then some p else if r = p then k.next q else k.next r := by
  have hnx : ∀ node prev, (k.setNext (some p) (k.next q) |>.setPrev node prev).next =
      update k.next p (k.next q) := by
    intro node prev
    cases node <;> rfl
  change update ((k.setNext (some p) (k.next q)).setPrev (k.next q) (some p)).next q (some p) r = _
  rw [hnx, update_apply, update_apply]

theorem insertAfter_prev (k : Links) (q p : ℕ) {r : ℕ} : (k.insertAfter q p).prev r =
    if r = p then some q else if k.next q = some r then some p else k.prev r := by
  change update ((k.setNext (some p) (k.next q)).setPrev (k.next q) (some p)).prev p (some q) r = _
  rw [update_apply]
  refine if_congr Iff.rfl rfl ?_
  cases hnx : k.next q with
  | none => exact (if_neg (by simp)).symm
  | some s =>
    change update k.prev s (some p) r = _
    rw [update_apply]
    exact if_congr (by rw [some_inj]; exact eq_comm) rfl rfl

theorem unlink_next (k : Links) (p : ℕ) {r : ℕ} :
    (k.unlink p).next r = if k.prev p = some r then k.next p else k.next r := by
  have hnx : ∀ (k : Links) node prev, (k.setPrev node prev).next = k.next := fun k node prev => by
    cases node <;> rfl
  rw [unlink, hnx]
  cases hprev : k.prev p with
  | none => exact (if_neg (by simp)).symm
  | some q =>
    change update k.next q (k.next p) r = _
    rw [update_apply]
    exact if_congr (by rw [some_inj]; exact eq_comm) rfl rfl

theorem unlink_prev (k : Links) (p : ℕ) {r : ℕ} :
    (k.unlink p).prev r = if k.next p = some r then k.prev p else k.prev r := by
  have hprev : ∀ (k : Links) node next, (k.setNext node next).prev = k.prev := fun k node next => by
    cases node <;> rfl
  rw [unlink]
  cases hnx : k.next p with
  | none => rw [setPrev, hprev, if_neg (by simp)]
  | some q =>
    change update (k.setNext (k.prev p) (some q)).prev q (k.prev p) r = _
    rw [update_apply, hprev]
    exact if_congr (by rw [some_inj]; exact eq_comm) rfl rfl

/-- A new node is the second one of the list. -/
theorem Linked.insertAfter (h : k.Linked (q :: l)) (hnd : (q :: l).Nodup) (hp : p ∉ q :: l) :
    (k.insertAfter q p).Linked (q :: p :: l) := by
  have hne : p ≠ q := fun heq => hp (heq ▸ mem_cons_self)
  have hq := (nodup_cons.1 hnd).1
  have hnx := h.next_eq
  refine ⟨?_, ?_, linked_cons.2 ⟨?_, fun r hr => ?_, ?_⟩⟩
  · rw [insertAfter_next, if_pos rfl]
  · rw [insertAfter_prev, if_pos rfl]
  · rw [insertAfter_next, if_neg hne, if_pos rfl, hnx]
  · have hrp : r ≠ p := fun heq => hp (mem_cons_of_mem _ (heq ▸ mem_of_mem_head? hr))
    rw [insertAfter_prev, if_neg hrp, if_pos (hnx.trans hr)]
  · refine h.tail.congr l (fun r hr => ?_) fun r hr => ?_
    · have hrq : r ≠ q := fun heq => hq (heq ▸ hr)
      have hrp : r ≠ p := fun heq => hp (mem_cons_of_mem _ (heq ▸ hr))
      rw [insertAfter_next, if_neg hrq, if_neg hrp]
    · have hr' := mem_of_mem_tail hr
      have hrp : r ≠ p := fun heq => hp (mem_cons_of_mem _ (heq ▸ hr'))
      have hhead : k.next q ≠ some r := by
        rw [hnx]
        cases l with
        | nil => exact absurd hr not_mem_nil
        | cons s l =>
          exact fun heq => (nodup_cons.1 (nodup_cons.1 hnd).2).1 (some.inj heq ▸ hr)
      rw [insertAfter_prev, if_neg hrp, if_neg hhead]

/-- A node that is not the first one is unlinked. -/
theorem Linked.unlink (l : List ℕ) : ∀ {q : ℕ}, k.Linked (q :: l) → (q :: l).Nodup → p ∈ l →
    (k.unlink p).Linked (q :: l.erase p) := by
  induction l with
  | nil => exact fun _ _ hp => absurd hp not_mem_nil
  | cons r l ih =>
    intro q h hnd hp
    obtain ⟨hq, hnd'⟩ := nodup_cons.1 hnd
    obtain ⟨hr, hl⟩ := nodup_cons.1 hnd'
    by_cases hpr : p = r
    · -- the neighbours of the node are the first node and the one behind
      subst hpr
      have hnx : k.next p = l.head? := h.tail.next_eq
      have hprev : k.prev p = some q := h.2.1
      rw [erase_cons_head]
      refine linked_cons.2 ⟨?_, fun s hs => ?_, ?_⟩
      · rw [unlink_next, if_pos hprev, hnx]
      · rw [unlink_prev, if_pos (hnx.trans hs), hprev]
      · refine h.tail.tail.congr l (fun s hs => ?_) fun s hs => ?_
        · have hsq : k.prev p ≠ some s := by
            rw [hprev]
            exact fun heq => hq (mem_cons_of_mem _ (some.inj heq ▸ hs))
          rw [unlink_next, if_neg hsq]
        · have hhead : k.next p ≠ some s := by
            rw [hnx]
            cases l with
            | nil => exact absurd hs not_mem_nil
            | cons u l => exact fun heq => (nodup_cons.1 hl).1 (some.inj heq ▸ hs)
          rw [unlink_prev, if_neg hhead]
    · have hp' : p ∈ l := (mem_cons.1 hp).resolve_left hpr
      rw [erase_cons_tail (by simpa using Ne.symm hpr)]
      have h' := ih h.tail hnd' hp'
      refine ⟨?_, ?_, h'⟩
      · obtain ⟨s, hs, hprev⟩ := h.tail.prev_mem l hp'
        have hne : some s ≠ some q := fun heq => hq (some.inj heq ▸ hs)
        rw [unlink_next, hprev, if_neg hne]
        exact h.1
      · rw [unlink_prev, if_neg fun heq => hr (h.tail.next_mem l (mem_cons_of_mem _ hp') heq)]
        exact h.2.1

end Links

end WfOpt

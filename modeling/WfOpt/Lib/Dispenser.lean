import Mathlib

/-!
# Handing out items

Threads take the items `0`, `1`, `2`, ... one by one. A thread works on the item it
has taken, at some point settles what it needs for it, and finishes it before it
takes another one. Then every item taken is finished, or held by one thread
(`Dispenser.Inv`), so that not more items than there are threads are unfinished
(`Dispenser.Inv.le_card`).
-/

namespace WfOpt

open Finset

/-- What a thread is up to. -/
inductive Phase
  | idle
  | working
  | settled
  deriving DecidableEq, Repr

/-- The items handed out, finished and settled, and what the threads are up to, with
    the item each has taken last. -/
@[ext] structure Dispenser (ι : Type*) where
  next : ℕ
  finished : ℕ → Prop
  settled : List ℕ
  phase : ι → Phase
  item : ι → ℕ

namespace Dispenser

variable {ι : Type*} {d d' : Dispenser ι}

def start : Dispenser ι := ⟨0, fun _ => False, [], fun _ => .idle, fun _ => 0⟩

/-- The threads other than `t` stay as they are. -/
def Others (d : Dispenser ι) (t : ι) (d' : Dispenser ι) : Prop :=
  ∀ t', t' ≠ t → d'.phase t' = d.phase t' ∧ d'.item t' = d.item t'

/-- What a step of the thread `t` does. -/
inductive Step (d : Dispenser ι) (t : ι) (d' : Dispenser ι) : Prop
  /-- A thread that is idle takes the next item. -/
  | take : d.Others t d' → d.phase t = .idle → d'.phase t = .working → d'.item t = d.next →
      d'.next = d.next + 1 → d'.finished = d.finished → d'.settled = d.settled → Step d t d'
  /-- A thread settles its item. -/
  | settle : d.Others t d' → d.phase t = .working → d'.phase t = .settled → d'.item t = d.item t →
      d'.next = d.next → d'.finished = d.finished → d'.settled = d.settled ++ [d.item t] → Step d t d'
  /-- A thread that has settled its item finishes it. -/
  | finish : d.Others t d' → d.phase t = .settled → d'.phase t = .idle → d'.next = d.next →
      (∀ i, d'.finished i ↔ d.finished i ∨ i = d.item t) → d'.settled = d.settled → Step d t d'

/-- Every item handed out is finished or held by one thread, and has been settled once if it is finished or settled by
    the thread. -/
structure Inv (d : Dispenser ι) : Prop where
  item_lt : ∀ t, d.phase t ≠ .idle → d.item t < d.next
  not_finished : ∀ t, d.phase t ≠ .idle → ¬d.finished (d.item t)
  distinct : ∀ t t', d.phase t ≠ .idle → d.phase t' ≠ .idle → d.item t = d.item t' → t = t'
  held : ∀ i < d.next, d.finished i ∨ ∃ t, d.phase t ≠ .idle ∧ d.item t = i
  finished_lt : ∀ i, d.finished i → i < d.next
  mem_settled : ∀ i, i ∈ d.settled ↔ d.finished i ∨ ∃ t, d.phase t = .settled ∧ d.item t = i
  nodup : d.settled.Nodup

theorem Inv.start : (start : Dispenser ι).Inv where
  item_lt _ h := absurd rfl h
  not_finished _ _ := id
  distinct _ _ h := absurd rfl h
  held i h := absurd h (Nat.not_lt_zero i)
  finished_lt _ h := h.elim
  mem_settled i := by simp [Dispenser.start]
  nodup := List.nodup_nil

theorem Inv.take {t : ι} (h : d.Inv) (hoths : d.Others t d') (hidle : d.phase t = .idle)
    (hph : d'.phase t = .working) (hitem : d'.item t = d.next) (hnx : d'.next = d.next + 1)
    (hfin : d'.finished = d.finished) (hset : d'.settled = d.settled) : d'.Inv := by
  have hne : ∀ t', d.phase t' ≠ .idle → t' ≠ t := by
    rintro t' ht' rfl
    exact ht' hidle
  have hcs : ∀ t', d'.phase t' ≠ .idle →
      (t' = t ∧ d'.item t' = d.next) ∨ (d.phase t' ≠ .idle ∧ d'.item t' = d.item t') := by
    intro t' ht'
    rcases eq_or_ne t' t with rfl | hne
    · exact .inl ⟨rfl, hitem⟩
    · exact .inr ⟨(hoths t' hne).1 ▸ ht', (hoths t' hne).2⟩
  refine ⟨fun t' ht' => ?_, fun t' ht' hf => ?_, fun t₁ t₂ h₁ h₂ heq => ?_, fun i hi => ?_,
    fun i hi => ?_, fun i => ?_, hset ▸ h.nodup⟩
  · rw [hnx, Nat.lt_succ_iff_lt_or_eq]
    rcases hcs t' ht' with ⟨-, h'⟩ | ⟨ht, h'⟩
    · exact .inr h'
    · exact .inl (h' ▸ h.item_lt t' ht)
  · rw [hfin] at hf
    rcases hcs t' ht' with ⟨-, h'⟩ | ⟨ht, h'⟩
    · exact lt_irrefl _ (h.finished_lt _ (h' ▸ hf))
    · exact h.not_finished t' ht (h' ▸ hf)
  · rcases hcs t₁ h₁ with ⟨rfl, h₁'⟩ | ⟨h₁, h₁'⟩ <;>
      rcases hcs t₂ h₂ with ⟨rfl, h₂'⟩ | ⟨h₂, h₂'⟩
    · rfl
    · exact absurd (h₂'.symm.trans (heq.symm.trans h₁')) (h.item_lt t₂ h₂).ne
    · exact absurd (h₁'.symm.trans (heq.trans h₂')) (h.item_lt t₁ h₁).ne
    · exact h.distinct t₁ t₂ h₁ h₂ (h₁'.symm.trans (heq.trans h₂'))
  · rw [hnx, Nat.lt_succ_iff_lt_or_eq] at hi
    rw [hfin]
    rcases hi with hi | rfl
    · refine (h.held i hi).imp_right fun ⟨t', ht', hi'⟩ => ⟨t', ?_⟩
      obtain ⟨h₁, h₂⟩ := hoths t' (hne t' ht')
      exact ⟨h₁ ▸ ht', h₂.trans hi'⟩
    · exact .inr ⟨t, by simp [hph], hitem⟩
  · rw [hfin] at hi
    rw [hnx]
    exact (h.finished_lt i hi).trans (Nat.lt_succ_self _)
  · rw [hset, hfin, h.mem_settled]
    refine or_congr_right ⟨fun ⟨t', ht', hi'⟩ => ⟨t', ?_⟩, fun ⟨t', ht', hi'⟩ => ⟨t', ?_⟩⟩
    · obtain ⟨h₁, h₂⟩ := hoths t' (hne t' (by simp [ht']))
      exact ⟨h₁.trans ht', h₂.trans hi'⟩
    · have hne' : t' ≠ t := by
        rintro rfl
        simp [hph] at ht'
      obtain ⟨h₁, h₂⟩ := hoths t' hne'
      exact ⟨h₁.symm.trans ht', h₂.symm.trans hi'⟩

/-- The threads that hold an item, when it is settled. -/
theorem Others.same {t : ι} (hoths : d.Others t d') (hbusy : d.phase t ≠ .idle ↔ d'.phase t ≠ .idle)
    (hitem : d'.item t = d.item t) (t' : ι) :
    (d'.phase t' ≠ .idle ↔ d.phase t' ≠ .idle) ∧ d'.item t' = d.item t' := by
  rcases eq_or_ne t' t with rfl | hne
  · exact ⟨hbusy.symm, hitem⟩
  · rw [(hoths t' hne).1]
    exact ⟨.rfl, (hoths t' hne).2⟩

theorem Inv.settle {t : ι} (h : d.Inv) (hoths : d.Others t d') (hwork : d.phase t = .working)
    (hph : d'.phase t = .settled) (hitem : d'.item t = d.item t) (hnx : d'.next = d.next)
    (hfin : d'.finished = d.finished) (hset : d'.settled = d.settled ++ [d.item t]) : d'.Inv := by
  have hsm := hoths.same (by simp [hwork, hph]) hitem
  have hbusy : d.phase t ≠ .idle := by simp [hwork]
  have hnot : d.item t ∉ d.settled := by
    rw [h.mem_settled]
    rintro (hf | ⟨t', ht', heq⟩)
    · exact h.not_finished t hbusy hf
    · obtain rfl := h.distinct t' t (by simp [ht']) hbusy heq
      simp [hwork] at ht'
  refine ⟨fun t' ht' => ?_, fun t' ht' => ?_, fun t₁ t₂ h₁ h₂ heq => ?_, fun i hi => ?_,
    fun i hi => ?_, fun i => ?_, ?_⟩
  · rw [hnx, (hsm t').2]
    exact h.item_lt t' ((hsm t').1.1 ht')
  · rw [hfin, (hsm t').2]
    exact h.not_finished t' ((hsm t').1.1 ht')
  · rw [(hsm t₁).2, (hsm t₂).2] at heq
    exact h.distinct t₁ t₂ ((hsm t₁).1.1 h₁) ((hsm t₂).1.1 h₂) heq
  · rw [hnx] at hi
    rw [hfin]
    exact (h.held i hi).imp_right fun ⟨t', ht', hi'⟩ =>
      ⟨t', (hsm t').1.2 ht', (hsm t').2.trans hi'⟩
  · rw [hfin] at hi
    exact hnx ▸ h.finished_lt i hi
  · rw [hset, hfin, List.mem_append, List.mem_singleton, h.mem_settled, or_assoc]
    refine or_congr_right ⟨?_, fun ⟨t', ht', hi'⟩ => ?_⟩
    · rintro (⟨t', ht', hi'⟩ | rfl)
      · have hne : t' ≠ t := by
          rintro rfl
          simp [hwork] at ht'
        exact ⟨t', (hoths t' hne).1.trans ht', (hoths t' hne).2.trans hi'⟩
      · exact ⟨t, hph, hitem⟩
    · rcases eq_or_ne t' t with rfl | hne
      · exact .inr (hi'.symm.trans hitem)
      · obtain ⟨h₁, h₂⟩ := hoths t' hne
        exact .inl ⟨t', h₁.symm.trans ht', h₂.symm.trans hi'⟩
  · rw [hset]
    exact List.concat_eq_append ▸ h.nodup.concat hnot

theorem Inv.finish {t : ι} (h : d.Inv) (hoths : d.Others t d') (hsett : d.phase t = .settled)
    (hph : d'.phase t = .idle) (hnx : d'.next = d.next)
    (hfin : ∀ i, d'.finished i ↔ d.finished i ∨ i = d.item t) (hset : d'.settled = d.settled) :
    d'.Inv := by
  have hbusy : d.phase t ≠ .idle := by simp [hsett]
  have hold : ∀ t', d'.phase t' ≠ .idle → t' ≠ t ∧ d.phase t' ≠ .idle ∧ d'.item t' = d.item t' := by
    intro t' ht'
    have hne : t' ≠ t := by
      rintro rfl
      exact ht' hph
    exact ⟨hne, (hoths t' hne).1 ▸ ht', (hoths t' hne).2⟩
  refine ⟨fun t' ht' => ?_, fun t' ht' hf => ?_, fun t₁ t₂ h₁ h₂ heq => ?_, fun i hi => ?_,
    fun i hi => ?_, fun i => ?_, hset ▸ h.nodup⟩
  · obtain ⟨-, h₁, h₂⟩ := hold t' ht'
    rw [hnx, h₂]
    exact h.item_lt t' h₁
  · obtain ⟨hne, h₁, h₂⟩ := hold t' ht'
    rw [hfin, h₂] at hf
    rcases hf with hf | hf
    · exact h.not_finished t' h₁ hf
    · exact hne (h.distinct t' t h₁ hbusy hf)
  · obtain ⟨-, h₁, h₁'⟩ := hold t₁ h₁
    obtain ⟨-, h₂, h₂'⟩ := hold t₂ h₂
    exact h.distinct t₁ t₂ h₁ h₂ (h₁'.symm.trans (heq.trans h₂'))
  · rw [hnx] at hi
    rw [hfin]
    rcases h.held i hi with hf | ⟨t', ht', rfl⟩
    · exact .inl (.inl hf)
    · rcases eq_or_ne t' t with rfl | hne
      · exact .inl (.inr rfl)
      · obtain ⟨h₁, h₂⟩ := hoths t' hne
        exact .inr ⟨t', h₁ ▸ ht', h₂⟩
  · rw [hnx]
    rcases (hfin i).1 hi with hf | rfl
    · exact h.finished_lt i hf
    · exact h.item_lt t hbusy
  · rw [hset, hfin, h.mem_settled, or_assoc]
    refine or_congr_right ⟨fun ⟨t', ht', hi'⟩ => ?_, ?_⟩
    · rcases eq_or_ne t' t with rfl | hne
      · exact .inl hi'.symm
      · obtain ⟨h₁, h₂⟩ := hoths t' hne
        exact .inr ⟨t', h₁.trans ht', h₂.trans hi'⟩
    · rintro (rfl | ⟨t', ht', hi'⟩)
      · exact ⟨t, hsett, rfl⟩
      · obtain ⟨hne, -, h₂⟩ := hold t' (by simp [ht'])
        exact ⟨t', (hoths t' hne).1.symm.trans ht', h₂.symm.trans hi'⟩

theorem Inv.step {t : ι} (h : d.Inv) (hs : d.Step t d') : d'.Inv := by
  cases hs with
  | take h₁ h₂ h₃ h₄ h₅ h₆ h₇ => exact h.take h₁ h₂ h₃ h₄ h₅ h₆ h₇
  | settle h₁ h₂ h₃ h₄ h₅ h₆ h₇ => exact h.settle h₁ h₂ h₃ h₄ h₅ h₆ h₇
  | finish h₁ h₂ h₃ h₄ h₅ h₆ => exact h.finish h₁ h₂ h₃ h₄ h₅ h₆

/-- Not more items are unfinished than there are threads that can hold them. -/
theorem Inv.le_card (h : d.Inv) {i p : ℕ} (hp : p ≤ d.next)
    (hnot : ∀ k, i ≤ k → k < p → ¬d.finished k) {s : Finset ι}
    (hs : ∀ t, d.phase t ≠ .idle → d.item t < p → t ∈ s) : p - i ≤ s.card := by
  have hsub : Ico i p ⊆ s.image d.item := by
    intro k hk
    rw [mem_Ico] at hk
    obtain ⟨t, ht, rfl⟩ := (h.held k (hk.2.trans_le hp)).resolve_left (hnot k hk.1 hk.2)
    exact mem_image_of_mem d.item (hs t ht hk.2)
  calc
    p - i = (Ico i p).card := (Nat.card_Ico i p).symm
    _ ≤ (s.image d.item).card := card_le_card hsub
    _ ≤ s.card := card_image_le

end Dispenser

end WfOpt

import Mathlib

/-!
# Lending items

Items are handed out to threads, each item once, and each thread holds at most one
item at a time, until it gives it back. A `Ledger` records who was handed what, and who
gave back what. Everything that was handed out has been given back by whom it
was handed to, or is still held by them (`Ledger.Inv`).
-/

namespace WfOpt

open List Function

/-- What has been handed out and given back, to and by whom, and what is held. -/
structure Ledger (ι α : Type*) where
  handed : List (ι × α)
  returned : List (ι × α)
  held : ι → Option α

namespace Ledger

variable {ι α : Type*} {d : Ledger ι α} {t : ι} {x : α}

structure Inv (d : Ledger ι α) : Prop where
  handed_nodup : (d.handed.map Prod.snd).Nodup
  returned_nodup : (d.returned.map Prod.snd).Nodup
  returned_subset : ∀ e ∈ d.returned, e ∈ d.handed
  held_mem : ∀ t x, d.held t = some x → (t, x) ∈ d.handed ∧ x ∉ d.returned.map Prod.snd
  returned_or_held : ∀ t x, (t, x) ∈ d.handed → (t, x) ∈ d.returned ∨ d.held t = some x

/-- Two threads do not hold the same item. -/
theorem Inv.unique (h : d.Inv) {t' : ι} (ht : d.held t = some x) (ht' : d.held t' = some x) : t = t' := by
  have heq := inj_on_of_nodup_map h.handed_nodup (h.held_mem t x ht).1
    (h.held_mem t' x ht').1 rfl
  exact congrArg Prod.fst heq

theorem Inv.start : (⟨[], [], fun _ => none⟩ : Ledger ι α).Inv where
  handed_nodup := nodup_nil
  returned_nodup := nodup_nil
  returned_subset _ h := h
  held_mem _ _ h := absurd h (by simp)
  returned_or_held _ _ h := absurd h not_mem_nil

variable [DecidableEq ι]

/-- An item that has not been handed out is handed to a thread that holds none. -/
theorem Inv.hand (h : d.Inv) (hx : x ∉ d.handed.map Prod.snd) (ht : d.held t = none) :
    (⟨d.handed ++ [(t, x)], d.returned, update d.held t (some x)⟩ : Ledger ι α).Inv := by
  have hret : x ∉ d.returned.map Prod.snd := by
    intro hmem
    obtain ⟨e, he, rfl⟩ := mem_map.1 hmem
    exact hx (mem_map_of_mem (h.returned_subset e he))
  refine ⟨?_, h.returned_nodup, fun e he => ?_, fun t' x' ht' => ?_, fun t' x' hmem => ?_⟩
  · rw [map_append, map_singleton, ← concat_eq_append]
    exact h.handed_nodup.concat hx
  · exact mem_append_left _ (h.returned_subset e he)
  · rcases eq_or_ne t' t with rfl | hne
    · dsimp only at ht'
      rw [update_self, Option.some.injEq] at ht'
      subst ht'
      exact ⟨mem_append_right _ (mem_singleton_self _), hret⟩
    · dsimp only at ht'
      rw [update_of_ne hne] at ht'
      obtain ⟨h₁, h₂⟩ := h.held_mem t' x' ht'
      exact ⟨mem_append_left _ h₁, h₂⟩
  · dsimp only
    rcases mem_append.1 hmem with hmem | hmem
    · refine (h.returned_or_held t' x' hmem).imp_right fun hheld => ?_
      have hne : t' ≠ t := by
        rintro rfl
        rw [ht] at hheld
        exact absurd hheld (by simp)
      rw [update_of_ne hne, hheld]
    · obtain ⟨rfl, rfl⟩ := Prod.mk.inj (mem_singleton.1 hmem)
      exact .inr (update_self ..)

/-- A thread gives back the item it holds. -/
theorem Inv.giveBack (h : d.Inv) (ht : d.held t = some x) :
    (⟨d.handed, d.returned ++ [(t, x)], update d.held t none⟩ : Ledger ι α).Inv := by
  obtain ⟨hmem, hx⟩ := h.held_mem t x ht
  refine ⟨h.handed_nodup, ?_, fun e he => ?_, fun t' x' ht' => ?_, fun t' x' hmem' => ?_⟩
  · rw [map_append, map_singleton, ← concat_eq_append]
    exact h.returned_nodup.concat hx
  · rcases mem_append.1 he with he | he
    · exact h.returned_subset e he
    · exact mem_singleton.1 he ▸ hmem
  · have hne : t' ≠ t := by
      rintro rfl
      dsimp only at ht'
      exact absurd ht' (by simp)
    dsimp only at ht' ⊢
    rw [update_of_ne hne] at ht'
    obtain ⟨h₁, h₂⟩ := h.held_mem t' x' ht'
    refine ⟨h₁, ?_⟩
    rw [map_append, mem_append, not_or]
    refine ⟨h₂, fun heq => hne (h.unique ht' ?_)⟩
    rw [ht, mem_singleton.1 heq]
  · rcases h.returned_or_held t' x' hmem' with hret | hheld
    · exact .inl (mem_append_left _ hret)
    · rcases eq_or_ne t' t with rfl | hne
      · obtain rfl := Option.some.inj (ht.symm.trans hheld)
        exact .inl (mem_append_right _ (mem_singleton_self _))
      · exact .inr ((update_of_ne hne ..).trans hheld)

end Ledger

end WfOpt

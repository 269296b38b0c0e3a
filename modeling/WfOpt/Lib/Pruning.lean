import Mathlib

/-!
# Pruning below a rank

The *rank* of an element `x` among the elements of a list is the number of those that come before it, plus one, for
a transitive relation `before`. A list is *pruned* below the rank `k` by dropping elements that come after at least
`k` of those that are kept (`Prunes`): the elements of rank at most `k` and their ranks stay the same
(`Prunes.lossless`). Pruning composes, in sequence (`Prunes.trans`) and over the parts of a list (`Prunes.append`,
`Prunes.flatMap`).
-/

namespace WfOpt

open List

variable {α : Type*} (before : α → α → Prop) [DecidableRel before]

/-- The rank of `x` among the elements of `l`. -/
def rankIn (l : List α) (x : α) : ℕ := l.countP (fun y => before y x) + 1

/-- `kept` is `full` without elements that come after at least `k` of those that are kept. -/
def Prunes (k : ℕ) (full kept : List α) : Prop :=
  ∃ dropped, full.Perm (kept ++ dropped) ∧ ∀ z ∈ dropped, k ≤ kept.countP (fun y => before y z)

/-- The elements of rank at most `k` are the same in `full` and in `kept`, with
    the same ranks and as often. -/
structure RankLossless [DecidableEq α] (k : ℕ) (full kept : List α) : Prop where
  le_iff : ∀ x ∈ full, rankIn before full x ≤ k ↔ x ∈ kept ∧ rankIn before kept x ≤ k
  rank_eq : ∀ x ∈ full, rankIn before full x ≤ k → rankIn before kept x = rankIn before full x
  count_eq : ∀ x, rankIn before full x ≤ k → kept.count x = full.count x
  count_le : ∀ x, kept.count x ≤ full.count x

namespace Prunes

variable {before} {k : ℕ} {full kept : List α}

/-- Nothing is dropped. -/
theorem of_perm (h : full.Perm kept) : Prunes before k full kept :=
  ⟨[], by rwa [append_nil], fun _ hz => absurd hz not_mem_nil⟩

variable (h : Prunes before k full kept)

include h

theorem congr {full' kept' : List α} (hfull : full.Perm full')
    (hkept : kept.Perm kept') : Prunes before k full' kept' := by
  obtain ⟨dropped, hperm, hd⟩ := h
  refine ⟨dropped, hfull.symm.trans (hperm.trans (hkept.append_right dropped)), fun z hz => ?_⟩
  rw [← hkept.countP_eq]
  exact hd z hz

/-- What comes before also does so for a larger relation. -/
theorem mono {before' : α → α → Prop} [DecidableRel before']
    (himp : ∀ x y, before x y → before' x y) : Prunes before' k full kept := by
  obtain ⟨dropped, hperm, hd⟩ := h
  refine ⟨dropped, hperm, fun z hz => (hd z hz).trans (countP_mono_left fun y _ hy => ?_)⟩
  exact decide_eq_true (himp y z (of_decide_eq_true hy))

/-- The parts of a list can be pruned independently. -/
theorem append {full' kept' : List α}
    (h' : Prunes before k full' kept') : Prunes before k (full ++ full') (kept ++ kept') := by
  obtain ⟨d, hperm, hd⟩ := h
  obtain ⟨d', hperm', hd'⟩ := h'
  refine ⟨d ++ d', ?_, fun z hz => ?_⟩
  · refine (hperm.append hperm').trans ?_
    rw [append_assoc, append_assoc]
    refine List.Perm.append_left kept ?_
    rw [← append_assoc, ← append_assoc]
    exact perm_append_comm.append_right d'
  · rw [countP_append]
    rcases mem_append.1 hz with hz | hz
    · exact (hd z hz).trans (Nat.le_add_right _ _)
    · exact (hd' z hz).trans (Nat.le_add_left _ _)

omit h in
theorem flatMap {ι : Type*} {f g : ι → List α} : ∀ {l : List ι}, (∀ i ∈ l, Prunes before k (f i) (g i)) →
      Prunes before k (l.flatMap f) (l.flatMap g)
  | [], _ => of_perm (List.Perm.refl _)
  | i :: l, h => by
    rw [flatMap_cons, flatMap_cons]
    exact (h i mem_cons_self).append (flatMap fun j hj => h j (mem_cons_of_mem i hj))

/-- What is kept is among what there was, so ranks can only get smaller. -/
theorem rank_le (x : α) : rankIn before kept x ≤ rankIn before full x := by
  obtain ⟨d, hperm, -⟩ := h
  rw [rankIn, rankIn, hperm.countP_eq, countP_append]
  omega

variable [IsTrans α before]

omit h in
/-- What comes before an element comes before whatever that one comes before. -/
theorem countP_le_of_before (l : List α) {y z : α} (h : before y z) :
    l.countP (fun x => before x y) ≤ l.countP (fun x => before x z) :=
  countP_mono_left fun x _ hx => by
    simp only [decide_eq_true_eq] at hx ⊢
    exact Trans.trans hx h

/-- What comes after `k` of all elements comes after `k` of those kept. -/
theorem le_countP {z : α} (hz : k ≤ full.countP fun y => before y z) : k ≤ kept.countP fun y => before y z := by
  obtain ⟨d, hperm, hd⟩ := h
  by_cases hex : ∃ y ∈ d, before y z
  · -- One of the elements before `z` was dropped itself: use those before it.
    obtain ⟨y, hy, hyz⟩ := hex
    exact (hd y hy).trans (countP_le_of_before kept hyz)
  · have hzero : d.countP (fun y => before y z) = 0 :=
      countP_eq_zero.2 fun y hy => by simpa using fun h => hex ⟨y, hy, h⟩
    rwa [hperm.countP_eq, countP_append, hzero, Nat.add_zero] at hz

/-- One more element is dropped, which comes after `k` of all elements, kept or
    not. -/
theorem drop {z : α} (hz : k ≤ full.countP fun y => before y z) : Prunes before k (full ++ [z]) kept := by
  have hkept := h.le_countP hz
  obtain ⟨d, hperm, hd⟩ := h
  refine ⟨d ++ [z], ?_, fun x hx => ?_⟩
  · rw [← append_assoc]
    exact hperm.append_right [z]
  · rcases mem_append.1 hx with hx | hx
    · exact hd x hx
    · rwa [mem_singleton.1 hx]

/-- What is dropped, at first or later, comes after `k` of the elements left in
    the end. -/
theorem trans {kept' : List α} (h' : Prunes before k kept kept') : Prunes before k full kept' := by
  obtain ⟨d, hperm, hd⟩ := h
  obtain ⟨d', hperm', hd'⟩ := id h'
  refine ⟨d' ++ d, ?_, fun z hz => ?_⟩
  · rw [← append_assoc]
    exact hperm.trans (hperm'.append_right d)
  · rcases mem_append.1 hz with hz | hz
    · exact hd' z hz
    · exact h'.le_countP (hd z hz)

/-- A rank of at most `k` among the elements kept is the rank among all: nothing
    that comes before has been dropped. -/
theorem rank_eq_of_le {x : α} (hx : rankIn before kept x ≤ k) : rankIn before full x = rankIn before kept x := by
  obtain ⟨d, hperm, hd⟩ := h
  have hz : d.countP (fun y => before y x) = 0 := countP_eq_zero.2 fun y hy hyx => by
    have := (hd y hy).trans (countP_le_of_before kept (of_decide_eq_true hyx))
    rw [rankIn] at hx
    omega
  rw [rankIn, rankIn, hperm.countP_eq, countP_append, hz, Nat.add_zero]

/-- Pruning below the rank `k` loses nothing up to the rank `k`. -/
theorem lossless [DecidableEq α] : RankLossless before k full kept := by
  obtain ⟨d, hperm, hd⟩ := id h
  -- What is dropped has a rank beyond `k`.
  have hout : ∀ x, rankIn before full x ≤ k → x ∉ d := fun x hx hxd => by
    have h₁ := hd x hxd
    have h₂ := h.rank_le x
    rw [rankIn] at h₂
    omega
  refine ⟨fun x hx => ⟨fun hr => ?_, fun ⟨_, hr⟩ => ?_⟩, fun x _ hr => ?_, fun x hr => ?_, fun x => ?_⟩
  · have := hperm.mem_iff.1 hx
    exact ⟨(mem_append.1 this).resolve_right (hout x hr), (h.rank_le x).trans hr⟩
  · rwa [h.rank_eq_of_le hr]
  · exact (h.rank_eq_of_le ((h.rank_le x).trans hr)).symm
  · rw [hperm.count_eq, count_append, count_eq_zero_of_not_mem (hout x hr), Nat.add_zero]
  · rw [hperm.count_eq, count_append]
    exact Nat.le_add_right _ _

end Prunes

end WfOpt

import WfOpt.Sort.HashedSort

/-!
# What the hash groups are

* The number of bits that is shared never decreases, and is fixed when a thread has
  combined (`HashedGlobal.Extends`).
* Every thread combines with these bits, so that it has a partition for each hash group
  (`HashedLocal.Inv`).
* Every run ends (`HashedSort.exists_finished`), with every row in one group
  (`HashedSort.sunk_rows_grouped`).
-/

namespace WfOpt

open List Option RadixPartitioning Function

variable {α : Type*} {hash : α → UInt64}

/-! ## Operations on the global state -/

namespace HashedGlobal

variable {threadPages : ℕ} {g g' g'' : HashedGlobal hash} {p : RadixPartitionedTupleData hash}

/-- The rows of the hash groups. -/
def groupRows (g : HashedGlobal hash) : List (List α) := g.hashGroups.map fun group => group.getD []

/-- What a run can do to the global state. -/
structure Extends (g g' : HashedGlobal hash) : Prop where
  bits_le : g.bits ≤ g'.bits
  fixed : g.fixedBits ≠ 0 → g'.fixedBits ≠ 0 ∧ g'.bits = g.bits
  length_eq : g.hashGroups ≠ [] → g'.hashGroups.length = g.hashGroups.length
  created : ∀ i, (g.hashGroups.getD i none).isSome → (g'.hashGroups.getD i none).isSome

structure Inv (g : HashedGlobal hash) : Prop where
  groups : g.hashGroups ≠ [] →
    g.fixedBits ≠ 0 ∧ g.hashGroups.length = numberOfPartitions g.bits
  placed : Placed (fun x => applyMask g.bits (hash x)) g.groupRows

/-- The data has been combined: it has the bits that are fixed, and a partition for each
    hash group. -/
structure Combined (g : HashedGlobal hash) (p : RadixPartitionedTupleData hash) : Prop where
  fixed : g.fixedBits ≠ 0
  radixBits_eq : p.radixBits = g.bits
  length_eq : p.partitions.length = g.hashGroups.length

theorem Extends.refl : g.Extends g := ⟨le_rfl, fun h => ⟨h, rfl⟩, fun _ => rfl, fun _ h => h⟩

theorem Extends.trans (h : g.Extends g') (h' : g'.Extends g'') : g.Extends g'' where
  bits_le := h.bits_le.trans h'.bits_le
  fixed hf := ⟨(h'.fixed (h.fixed hf).1).1, (h'.fixed (h.fixed hf).1).2.trans (h.fixed hf).2⟩
  length_eq hne := by
    have hlen := h.length_eq hne
    have hne' : g'.hashGroups ≠ [] := by
      rw [← length_pos_iff, hlen, length_pos_iff]
      exact hne
    exact (h'.length_eq hne').trans hlen
  created i hi := h'.created i (h.created i hi)

theorem Combined.hashGroups_ne_nil (h : g.Combined p) : g.hashGroups ≠ [] := by
  rw [← length_pos_iff, ← h.length_eq, p.length_partitions]
  exact numberOfPartitions_pos

theorem Combined.extends (h : g.Combined p) (hg : g.Extends g') : g'.Combined p where
  fixed := (hg.fixed h.fixed).1
  radixBits_eq := h.radixBits_eq.trans (hg.fixed h.fixed).2.symm
  length_eq := h.length_eq.trans (hg.length_eq h.hashGroups_ne_nil).symm

/-- `Rehash` does nothing, or there are more bits, which are not fixed. -/
theorem rehash_cases (c : ℕ) : g.rehash threadPages c = g ∨
      g.fixedBits = 0 ∧ ∃ newBits, ∃ h : newBits ≤ maxRadixBits, g.bits ≤ newBits ∧
        g.rehash threadPages c = { g with groupingData := .create hash newBits h } := by
  by_cases hfixed : g.fixedBits ≠ 0
  · exact .inl (if_pos hfixed)
  by_cases hbits : rehashBits (maxBits threadPages) c g.bits ≠ g.bits
  · refine .inr ⟨not_not.1 hfixed, rehashBits (maxBits threadPages) c g.bits,
      rehashBits_le g.bits_le, le_rehashBits, ?_⟩
    exact (if_neg hfixed).trans (if_pos hbits)
  · exact .inl ((if_neg hfixed).trans (if_neg hbits))

theorem rehash_extends (c : ℕ) : g.Extends (g.rehash threadPages c) := by
  rcases rehash_cases c with heq | ⟨hfixed, newBits, h, hle, heq⟩
  · rw [heq]
    exact .refl
  · rw [heq]
    exact ⟨hle, fun hne => absurd hfixed hne, fun _ => rfl, fun _ hi => hi⟩

theorem Inv.rehash (hg : g.Inv) (c : ℕ) : (g.rehash threadPages c).Inv := by
  rcases rehash_cases c with heq | ⟨hfixed, newBits, h, hle, heq⟩
  · rwa [heq]
  · have hnil : g.hashGroups = [] := by
      by_contra hne
      exact (hg.groups hne).1 hfixed
    rw [heq]
    refine ⟨fun hne => absurd hnil hne, fun i x hx => ?_⟩
    rw [groupRows] at hx
    simp [hnil] at hx

theorem groupRows_rehash (c : ℕ) : (g.rehash threadPages c).groupRows = g.groupRows := by
  rcases rehash_cases c with heq | ⟨-, newBits, h, -, heq⟩ <;> rw [heq]
  rfl

theorem radixBits_syncLocalPartition : (g.syncLocalPartition p).radixBits = g.bits := by
  rw [syncLocalPartition]
  split_ifs with hb
  · exact hb
  · exact RadixPartitionedTupleData.radixBits_repartition

theorem rows_syncLocalPartition : (g.syncLocalPartition p).rows.Perm p.rows := by
  rw [syncLocalPartition]
  split_ifs
  · exact .refl _
  · refine RadixPartitionedTupleData.rows_repartition.trans ?_
    rw [RadixPartitionedTupleData.rows_create]
    exact .refl _

/-! ### Groups that are created -/

theorem getD_createGroup {xs : List α} {group : Option (List α)} :
    (createGroup xs group).getD [] = group.getD [] := by
  cases group with
  | some rows => rfl
  | none =>
    rw [createGroup]
    split_ifs <;> rfl

variable {partitions : List (List α)} {groups : List (Option (List α))}

theorem getElem?_createGroups (j : ℕ) : (createGroups partitions groups)[j]? =
      groups[j]?.map (createGroup (partitions.getD j [])) := by
  -- The groups up to `n`, after `n` iterations.
  have hloop : ∀ n, ((range n).foldl
      (fun groups i => groups.modify i (createGroup (partitions.getD i []))) groups)[j]? =
        if j < n then groups[j]?.map (createGroup (partitions.getD j [])) else groups[j]? := by
    intro n
    induction n with
    | zero => rfl
    | succ n ih =>
      rw [range_succ, foldl_append, foldl_cons, foldl_nil, getElem?_modify, ih]
      rcases lt_trichotomy j n with hlt | rfl | hgt
      · simp [hlt, hlt.ne', hlt.trans (Nat.lt_succ_self n)]
      · simp
      · simp [hgt.ne, hgt.not_gt, Nat.not_lt.2 (Nat.succ_le_of_lt hgt)]
  rw [createGroups, hloop]
  split_ifs with hj
  · rfl
  · rw [getD_eq_default _ _ (Nat.not_lt.1 hj)]
    cases groups[j]? with
    | none => rfl
    | some group => cases group <;> rfl

theorem length_createGroups : (createGroups partitions groups).length = groups.length := by
  rw [createGroups]
  induction partitions.length with
  | zero => rfl
  | succ n ih =>
    rw [range_succ, foldl_append, foldl_cons, foldl_nil, length_modify, ih]

theorem map_createGroups : ((createGroups partitions groups).map fun group => group.getD []) =
      groups.map fun group => group.getD [] := by
  refine ext_getElem? fun j => ?_
  rw [getElem?_map, getElem?_map, getElem?_createGroups, Option.map_map]
  congr 1
  funext group
  exact getD_createGroup

theorem isSome_createGroups {j : ℕ}
    (h : (groups.getD j none).isSome ∨ j < groups.length ∧ partitions.getD j [] ≠ []) :
    ((createGroups partitions groups).getD j none).isSome := by
  rw [getD_eq_getElem?_getD, getElem?_createGroups]
  rw [getD_eq_getElem?_getD] at h
  rcases Nat.lt_or_ge j groups.length with hj | hj
  · rw [getElem?_eq_getElem hj] at h ⊢
    dsimp only [map_some] at h ⊢
    cases hgrp : groups[j] with
    | some rows => rfl
    | none =>
      rw [hgrp] at h
      obtain ⟨-, hne⟩ := h.resolve_left (by simp)
      rw [createGroup, if_pos (by simpa using hne)]
      rfl
  · exact absurd h (by simp [Nat.not_lt.2 hj])

/-! ### Updating and combining -/

theorem updateLocalPartition_spec (threadPages : ℕ) (hg : g.Inv) (grouping : Option (RadixPartitionedTupleData hash)) :
    g.Extends (g.updateLocalPartition threadPages grouping).1 ∧
    (g.updateLocalPartition threadPages grouping).1.Inv ∧
    (g.updateLocalPartition threadPages grouping).1.groupRows = g.groupRows ∧
    (g.updateLocalPartition threadPages grouping).2.radixBits =
      (g.updateLocalPartition threadPages grouping).1.bits ∧
    (g.updateLocalPartition threadPages grouping).2.rows.Perm
      (grouping.elim [] RadixPartitionedTupleData.rows) := by
  cases grouping with
  | none => exact ⟨.refl, hg, rfl, rfl, by simp [updateLocalPartition]⟩
  | some p =>
    exact ⟨rehash_extends _, hg.rehash _, groupRows_rehash _, radixBits_syncLocalPartition, rows_syncLocalPartition⟩

theorem combineLocalPartition_spec (hg : g.Inv) (p : RadixPartitionedTupleData hash) :
    g.Extends (g.combineLocalPartition p).1 ∧
    (g.combineLocalPartition p).1.Inv ∧
    (g.combineLocalPartition p).1.groupRows.flatten = g.groupRows.flatten ∧
    (g.combineLocalPartition p).1.Combined (g.combineLocalPartition p).2 ∧
    (∀ i, (g.combineLocalPartition p).2.partitions.getD i [] ≠ [] →
      ((g.combineLocalPartition p).1.hashGroups.getD i none).isSome) ∧
    (g.combineLocalPartition p).2.rows.Perm p.rows := by
  obtain ⟨p', hp'⟩ : ∃ p', p' = g.syncLocalPartition p := ⟨_, rfl⟩
  obtain ⟨groups, hgrps⟩ : ∃ groups, groups =
      if g.hashGroups.isEmpty then replicate p'.partitions.length none else g.hashGroups :=
    ⟨_, rfl⟩
  have heq : g.combineLocalPartition p =
      ({ g with fixedBits := 1, hashGroups := createGroups p'.partitions groups }, p') := by
    rw [hgrps, hp']
    rfl
  have hbits : p'.radixBits = g.bits := hp' ▸ radixBits_syncLocalPartition
  have hrs : p'.rows.Perm p.rows := hp' ▸ rows_syncLocalPartition
  have hnil : g.hashGroups ≠ [] → groups = g.hashGroups := fun hne => by
    rw [hgrps, if_neg (by simpa using hne)]
  -- There is a hash group for each partition.
  have hlen : groups.length = p'.partitions.length := by
    by_cases hne : g.hashGroups = []
    · rw [hgrps, if_pos (by simpa using hne), length_replicate]
    · rw [hnil hne, (hg.groups hne).2, p'.length_partitions, hbits]
  -- The groups that are created are empty.
  have hmap : groups.map (fun group => group.getD []) = g.groupRows ∨
      ∃ n, g.groupRows = [] ∧ groups.map (fun group => group.getD []) = replicate n [] := by
    by_cases hne : g.hashGroups = []
    · refine .inr ⟨p'.partitions.length, ?_, ?_⟩
      · rw [groupRows, hne, map_nil]
      · rw [hgrps, if_pos (by simpa using hne), map_replicate]
        rfl
    · exact .inl (by rw [hnil hne, groupRows])
  have hrs' : (createGroups p'.partitions groups).map (fun group => group.getD []) =
      groups.map fun group => group.getD [] := map_createGroups
  rw [heq]
  refine ⟨⟨le_rfl, fun _ => ⟨one_ne_zero, rfl⟩, fun hne => ?_, fun i hi => ?_⟩,
    ⟨fun _ => ⟨one_ne_zero, ?_⟩, ?_⟩, ?_, ⟨one_ne_zero, hbits, ?_⟩, fun i hi => ?_, hrs⟩
  · rw [length_createGroups, hnil hne]
  · refine isSome_createGroups (.inl ?_)
    rwa [hnil fun hne => by simp [hne] at hi]
  · rw [length_createGroups, hlen, p'.length_partitions, hbits]
    rfl
  · change Placed _ ((createGroups p'.partitions groups).map fun group => group.getD [])
    rw [hrs']
    rcases hmap with hmap | ⟨n, -, hmap⟩
    · rw [hmap]
      exact hg.placed
    · rw [hmap]
      exact placed_replicate_nil
  · change ((createGroups p'.partitions groups).map fun group => group.getD []).flatten = _
    rw [hrs']
    rcases hmap with hmap | ⟨n, hemp, hmap⟩
    · rw [hmap]
    · rw [hmap, hemp]
      simp
  · exact (length_createGroups.trans hlen).symm
  · refine isSome_createGroups (.inr ⟨?_, hi⟩)
    rw [hlen]
    by_contra hge
    exact hi (getD_eq_default _ _ (Nat.not_lt.1 hge))

/-! ### Adding to a group -/

theorem map_set_group {i : ℕ} {rows : List α} (h : groups.getD i none = some rows) (xs : List α) :
    (groups.set i (some (rows ++ xs))).map (fun group => group.getD []) =
      addTo (groups.map fun group => group.getD []) i xs := by
  refine ext_getElem? fun j => ?_
  rw [getD_eq_getElem?_getD] at h
  rw [addTo, getElem?_modify, getElem?_map, getElem?_map, getElem?_set]
  split_ifs with hij hlt
  · subst hij
    rw [getElem?_eq_getElem hlt] at h ⊢
    rw [getD_some] at h
    simp [h]
  · subst hij
    simp [getElem?_eq_none (Nat.not_lt.1 hlt)]
  · simp

end HashedGlobal

/-! ## Threads -/

/-- The rows of the chunk that is being sunk. -/
def SinkPhase.rows : SinkPhase α → List α
  | .update chunk | .append chunk => chunk.appended
  | .ready | .combine _ | .finished | .failed => []

namespace HashedLocal

variable {g g' : HashedGlobal hash} {l : HashedLocal hash} {p : RadixPartitionedTupleData hash}

/-- The rows of a thread that are not in a hash group. -/
def rows (l : HashedLocal hash) : List α := l.chunks.flatMap HashedChunk.appended ++ l.phase.rows ++
    l.localGrouping.elim [] RadixPartitionedTupleData.rows

/-- The local partition has been given to `CombineLocalPartition`. -/
def Combined (l : HashedLocal hash) (p : RadixPartitionedTupleData hash) : Prop :=
  l.localGrouping = some p ∧ (l.phase = .finished ∨ ∃ hashBin, l.phase = .combine hashBin)

/-- What holds in each phase. -/
def PhaseInv (g : HashedGlobal hash) (l : HashedLocal hash) : Prop := match l.phase with
  | .ready | .update _ => True
  | .append _ => ∃ p, l.localGrouping = some p
  | .combine hashBin =>
    l.chunks = [] ∧ ∃ p, l.localGrouping = some p ∧ g.Combined p ∧ (∀ i < hashBin, p.partitions.getD i [] = []) ∧
      ∀ i, p.partitions.getD i [] ≠ [] → (g.hashGroups.getD i none).isSome
  | .finished => l.rows = [] ∧ ∀ p, l.localGrouping = some p → g.Combined p
  | .failed => False

structure Inv (g : HashedGlobal hash) (l : HashedLocal hash) : Prop where
  radixBits_le : ∀ p, l.localGrouping = some p → p.radixBits ≤ g.bits
  phase : l.PhaseInv g

/-- The steps of other threads keep the invariant. -/
theorem Inv.extends (h : l.Inv g) (hg : g.Extends g') : l.Inv g' := by
  refine ⟨fun p hp => (h.radixBits_le p hp).trans hg.bits_le, ?_⟩
  have hph := h.phase
  unfold PhaseInv at hph ⊢
  split at hph
  · trivial
  · trivial
  · exact hph
  · obtain ⟨hchks, p, hp, hcombd, hscan, hcre⟩ := hph
    exact ⟨hchks, p, hp, hcombd.extends hg, hscan, fun i hi => hg.created i (hcre i hi)⟩
  · exact ⟨hph.1, fun p hp => (hph.2 p hp).extends hg⟩
  · exact hph.elim

theorem Inv.combined (h : l.Inv g) (hl : l.Combined p) : g.Combined p := by
  have hph := h.phase
  unfold PhaseInv at hph
  obtain ⟨hp, hfsd | ⟨hashBin, hcomb⟩⟩ := hl
  · rw [hfsd] at hph
    exact hph.2 p hp
  · rw [hcomb] at hph
    obtain ⟨-, p', hp', hcombd, -⟩ := hph
    rw [hp, some_inj] at hp'
    rwa [hp']

end HashedLocal

namespace HashedSort

variable {h : HashedSort α} {g : HashedGlobal h.hash} {l : HashedLocal h.hash}
  {p : RadixPartitionedTupleData h.hash}

/-- What a step of a thread does. -/
structure Sinks (g : HashedGlobal h.hash) (l : HashedLocal h.hash)
    (r : HashedGlobal h.hash × HashedLocal h.hash) : Prop where
  extends_global : g.Extends r.1
  global_inv : r.1.Inv
  local_inv : r.2.Inv r.1
  rows : (r.2.rows ++ r.1.groupRows.flatten).Perm (l.rows ++ g.groupRows.flatten)

theorem combineStep_spec {hashBin : ℕ} (hg : g.Inv) (hchks : l.chunks = [])
    (hph : l.phase = .combine hashBin) (hp : l.localGrouping = some p) (hcombd : g.Combined p)
    (hscan : ∀ i < hashBin, p.partitions.getD i [] = [])
    (hcre : ∀ i, p.partitions.getD i [] ≠ [] → (g.hashGroups.getD i none).isSome) :
    Sinks g l (combineStep g l p hashBin) := by
  have hle : ∀ p', l.localGrouping = some p' → p'.radixBits ≤ g.bits := fun p' hp' => by
    rw [hp, some_inj] at hp'
    exact hp' ▸ hcombd.radixBits_eq.le
  rw [combineStep]
  split_ifs with hlt hemp
  · -- The partition is empty.
    refine ⟨.refl, hg, ⟨hle, hchks, p, hp, hcombd, fun i hi => ?_, hcre⟩, ?_⟩
    · rcases Nat.lt_succ_iff_lt_or_eq.1 hi with hi | rfl
      · exact hscan i hi
      · exact length_eq_zero_iff.1 hemp
    · simp [HashedLocal.rows, hph, SinkPhase.rows]
  · -- The rows of the partition are moved to its group.
    have hne : p.partitions.getD hashBin [] ≠ [] := fun hnil => hemp (by rw [hnil]; rfl)
    obtain ⟨rows, hrs⟩ := isSome_iff_exists.1 (hcre hashBin hne)
    have hlen : hashBin < g.groupRows.length := by
      rwa [HashedGlobal.groupRows, length_map, ← hcombd.length_eq]
    have hbin : ∀ x ∈ p.partitions.getD hashBin [], applyMask g.bits (h.hash x) = hashBin := by
      rw [← hcombd.radixBits_eq]
      exact p.placed hashBin
    have hset : ∀ i, (g.hashGroups.getD i none).isSome →
        ((g.hashGroups.set hashBin (some (rows ++ p.partitions.getD hashBin []))).getD i none).isSome := by
      intro i hi
      rw [getD_eq_getElem?_getD, getElem?_set]
      rw [getD_eq_getElem?_getD] at hi
      split_ifs with hij hge
      · rfl
      · rw [← hij, getElem?_eq_none (Nat.not_lt.1 hge)] at hi
        exact absurd hi (by simp)
      · exact hi
    have hgrps := HashedGlobal.map_set_group hrs (p.partitions.getD hashBin [])
    rw [hrs]
    refine ⟨⟨le_rfl, fun hf => ⟨hf, rfl⟩, fun _ => length_set .., hset⟩,
      ⟨fun _ => ⟨hcombd.fixed, ?_⟩, ?_⟩, ⟨fun p' hp' => ?_, hchks, p.scanned hashBin, rfl,
        ⟨hcombd.fixed, hcombd.radixBits_eq, ?_⟩, fun i hi => ?_, fun i hi => ?_⟩, ?_⟩
    · exact (length_set ..).trans (hg.groups hcombd.hashGroups_ne_nil).2
    · rw [HashedGlobal.groupRows, hgrps]
      exact hg.placed.addTo hbin
    · rw [some_inj] at hp'
      exact hp' ▸ hcombd.radixBits_eq.le
    · exact (length_set ..).trans (hcombd.length_eq.trans (length_set ..).symm)
    · rw [RadixPartitionedTupleData.scanned, getD_set_nil]
      split_ifs with hij
      · rfl
      · exact hscan i (by omega)
    · rw [RadixPartitionedTupleData.scanned, getD_set_nil] at hi
      split_ifs at hi with hij
      · exact absurd rfl hi
      · exact hset i (hcre i hi)
    · rw [HashedGlobal.groupRows, hgrps]
      have hmov := RadixPartitionedTupleData.rows_scanned hlt
      simp only [HashedLocal.rows, hchks, hph, hp, SinkPhase.rows, flatMap_nil, nil_append, elim_some]
      calc
        ((p.scanned hashBin).rows ++ (addTo g.groupRows hashBin _).flatten).Perm
          ((p.scanned hashBin).rows ++ (g.groupRows.flatten ++ p.partitions.getD hashBin [])) :=
            (flatten_addTo hlen).append_left _
        _ |>.Perm ((p.scanned hashBin).rows ++ (p.partitions.getD hashBin [] ++
          g.groupRows.flatten)) := (perm_append_comm).append_left _
        _ |>.Perm (p.rows ++ g.groupRows.flatten) := by
            rw [← append_assoc]
            exact hmov.symm.append_right _
  · -- All partitions have been scanned.
    have hnil : p.partitions.flatten = [] := by
      rw [flatten_eq_nil_iff]
      intro xs hxs
      obtain ⟨i, hi, rfl⟩ := mem_iff_getElem.1 hxs
      rw [← getD_eq_getElem _ [] hi]
      exact hscan i (hi.trans_le (Nat.not_lt.1 hlt))
    have hno : l.rows = [] := by
      simp [HashedLocal.rows, hchks, hph, SinkPhase.rows, hp, RadixPartitionedTupleData.rows, hnil]
    have hrs : { l with phase := .finished }.rows = l.rows := by
      simp [HashedLocal.rows, hph, SinkPhase.rows]
    refine ⟨.refl, hg, ⟨hle, hrs.trans hno, fun p' hp' => ?_⟩, ?_⟩
    · rw [hp, some_inj] at hp'
      exact hp' ▸ hcombd
    · rw [hrs]

theorem threadStep_spec (hg : g.Inv) (hl : l.Inv g) : Sinks g l (threadStep g l) := by
  have hphI := hl.phase
  unfold HashedLocal.PhaseInv at hphI
  cases hph : l.phase with
  | ready =>
    cases hchks : l.chunks with
    | cons chunk chunks =>
      have heq : threadStep g l = ({ g with count := g.count + chunk.rows.length },
          { l with chunks := chunks, phase := .update chunk }) := by
        rw [threadStep, hph]
        rw [hchks]
      rw [heq]
      refine ⟨⟨le_rfl, fun hf => ⟨hf, rfl⟩, fun _ => rfl, fun _ hi => hi⟩, ⟨hg.groups, hg.placed⟩,
        ⟨hl.radixBits_le, trivial⟩, ?_⟩
      simp only [HashedLocal.rows, HashedGlobal.groupRows, hph, hchks, SinkPhase.rows, flatMap_cons, append_nil]
      exact (perm_append_comm.append_right _).append_right _
    | nil =>
      cases hp : l.localGrouping with
      | none =>
        have heq : threadStep g l = (g, { l with phase := .finished }) := by
          rw [threadStep, hph]
          rw [hchks]
          rw [hp]
        have hrs : { l with phase := .finished }.rows = [] := by
          simp [HashedLocal.rows, hchks, hp, SinkPhase.rows]
        rw [heq]
        refine ⟨.refl, hg, ⟨hl.radixBits_le, hrs, fun p' hp' => ?_⟩, ?_⟩
        · rw [hp] at hp'
          cases hp'
        · simp [HashedLocal.rows, hph, SinkPhase.rows]
      | some p =>
        have heq : threadStep g l = ((g.combineLocalPartition p).1,
            { l with localGrouping := some (g.combineLocalPartition p).2, phase := .combine 0 }) := by
          rw [threadStep, hph]
          rw [hchks]
          rw [hp]
        obtain ⟨hext, hinv, hgrps, hcombd, hcre, hrs⟩ := g.combineLocalPartition_spec hg p
        rw [heq]
        refine ⟨hext, hinv, ⟨fun p' hp' => ?_, hchks, _, rfl, hcombd,
          fun i hi => absurd hi (Nat.not_lt_zero i), hcre⟩, ?_⟩
        · rw [some_inj] at hp'
          exact hp' ▸ hcombd.radixBits_eq.le
        · simp only [HashedLocal.rows, hph, hchks, hp, SinkPhase.rows, hgrps, elim_some]
          exact (hrs.append_left _).append_right _
  | update chunk =>
    have heq : threadStep g l = ((g.updateLocalPartition h.threadPages l.localGrouping).1, { l with
          localGrouping := some (g.updateLocalPartition h.threadPages l.localGrouping).2,
          phase := .append chunk }) := by
      rw [threadStep, hph]
    obtain ⟨hext, hinv, hgrps, hbits, hrs⟩ := g.updateLocalPartition_spec h.threadPages hg l.localGrouping
    rw [heq]
    refine ⟨hext, hinv, ⟨fun p' hp' => ?_, _, rfl⟩, ?_⟩
    · rw [some_inj] at hp'
      exact hp' ▸ hbits.le
    · simp only [HashedLocal.rows, hph, hgrps]
      exact (hrs.append_left _).append_right _
  | append chunk =>
    rw [hph] at hphI
    obtain ⟨p, hp⟩ := hphI
    have heq : threadStep g l =
        (g, { l with localGrouping := some (p.append chunk.appended), phase := .ready }) := by
      rw [threadStep, hph]
      rw [hp]
    rw [heq]
    refine ⟨.refl, hg, ⟨fun p' hp' => ?_, trivial⟩, ?_⟩
    · rw [some_inj] at hp'
      exact hp' ▸ hl.radixBits_le p hp
    · simp only [HashedLocal.rows, hph, hp, SinkPhase.rows, append_nil]
      refine List.Perm.append_right _ ?_
      rw [append_assoc]
      exact ((RadixPartitionedTupleData.rows_append _).trans perm_append_comm).append_left _
  | combine hashBin =>
    rw [hph] at hphI
    obtain ⟨hchks, p, hp, hcombd, hscan, hcre⟩ := hphI
    have heq : threadStep g l = combineStep g l p hashBin := by
      rw [threadStep, hph]
      rw [hp]
    rw [heq]
    exact combineStep_spec hg hchks hph hp hcombd hscan hcre
  | finished =>
    have heq : threadStep g l = (g, l) := by rw [threadStep, hph]
    rw [heq]
    exact ⟨.refl, hg, hl, .refl _⟩
  | failed =>
    rw [hph] at hphI
    exact hphI.elim

/-! ## Runs -/

variable {s : h.State} {t : Fin h.numThreads}

/-- The rows that are sunk by all threads. -/
def rows (h : HashedSort α) : List α :=
  (finRange h.numThreads).flatMap fun t => (h.chunks t).flatMap HashedChunk.appended

/-- What holds in every state of a run. No rows are lost or duplicated. -/
structure Inv (s : h.State) : Prop where
  global : s.global.Inv
  threads : ∀ t, (s.threads t).Inv s.global
  rows : ∑ t, ((s.threads t).rows : Multiset α) + s.global.groupRows.flatten = h.rows

theorem Inv.init : Inv h.init where
  global := ⟨fun hne => absurd rfl hne, fun i x hx => by
    rw [HashedGlobal.groupRows] at hx
    simp [HashedSort.init, initialGlobal] at hx⟩
  threads t := ⟨fun p hp => absurd hp (by simp [HashedSort.init]), trivial⟩
  rows := by
    have hsum : ∀ l : List (Fin h.numThreads), (l.map fun t => (((h.init).threads t).rows : Multiset α)).sum =
          (l.flatMap fun t => (h.chunks t).flatMap HashedChunk.appended : List α) := by
      intro l
      induction l with
      | nil => rfl
      | cons t l ih =>
        rw [map_cons, sum_cons, ih, flatMap_cons, ← Multiset.coe_add]
        simp [HashedSort.init, HashedLocal.rows, SinkPhase.rows]
    rw [Fin.sum_univ_def, hsum]
    simp [HashedSort.init, initialGlobal, HashedGlobal.groupRows, HashedSort.rows]

theorem State.step_threads : (s.step t).threads = update s.threads t (threadStep s.global (s.threads t)).2 := rfl

theorem Inv.step (hs : Inv s) (t : Fin h.numThreads) : Inv (s.step t) := by
  have hstep := threadStep_spec hs.global (hs.threads t)
  refine ⟨hstep.global_inv, fun t' => ?_, ?_⟩
  · rcases eq_or_ne t' t with rfl | hne
    · rw [State.step_threads, update_self]
      exact hstep.local_inv
    · rw [State.step_threads, update_of_ne hne]
      exact (hs.threads t').extends hstep.extends_global
  · rw [← hs.rows]
    refine sum_update_conserved (f := fun l : HashedLocal h.hash => (l.rows : Multiset α)) ?_
    exact Multiset.coe_eq_coe.2 hstep.rows

theorem Reachable.inv (hs : Reachable s) : Inv s := WfOpt.Reachable.invariant (fun _ heq => heq ▸ Inv.init)
    (fun _ _ _ hinv ⟨t, heq⟩ => heq ▸ hinv.step t) hs

theorem Reachable.foldl (hs : Reachable s) (l : List (Fin h.numThreads)) : Reachable (l.foldl State.step s) := by
  induction l generalizing s with
  | nil => exact hs
  | cons t l ih => exact ih (.step hs ⟨t, rfl⟩)

theorem Inv.extends_foldl (hs : Inv s) (l : List (Fin h.numThreads)) :
    s.global.Extends (l.foldl State.step s).global := by
  induction l generalizing s with
  | nil => exact .refl
  | cons t l ih => exact (threadStep_spec hs.global (hs.threads t)).extends_global.trans (ih (hs.step t))

/-! ### Runs end -/

/-- The steps left for a thread, at most. -/
def threadStepsLeft (l : HashedLocal h.hash) : ℕ := match l.phase with
  | .ready => 3 * l.chunks.length + numberOfPartitions maxRadixBits + 2
  | .update _ => 3 * l.chunks.length + numberOfPartitions maxRadixBits + 4
  | .append _ => 3 * l.chunks.length + numberOfPartitions maxRadixBits + 3
  | .combine hashBin => numberOfPartitions maxRadixBits - hashBin + 1
  | .finished | .failed => 0

/-- Every step of a thread that has not finished leaves less steps. -/
theorem threadStepsLeft_threadStep (hl : l.Inv g) (hf : l.phase ≠ .finished) :
    threadStepsLeft (threadStep g l).2 < threadStepsLeft l := by
  have hphI := hl.phase
  unfold HashedLocal.PhaseInv at hphI
  unfold threadStep threadStepsLeft
  cases hph : l.phase with
  | ready =>
    cases hchks : l.chunks with
    | cons chunk chunks =>
      simp only [length_cons]
      omega
    | nil => cases hp : l.localGrouping <;> simp
  | update chunk => simp
  | append chunk =>
    rw [hph] at hphI
    obtain ⟨p, hp⟩ := hphI
    simp [hp]
  | combine hashBin =>
    rw [hph] at hphI
    obtain ⟨-, p, hp, -, -, hcre⟩ := hphI
    have hle : p.partitions.length ≤ numberOfPartitions maxRadixBits := by
      rw [p.length_partitions, numberOfPartitions, numberOfPartitions, Nat.one_shiftLeft, Nat.one_shiftLeft]
      exact Nat.pow_le_pow_right Nat.two_pos p.radixBits_le
    simp only [hp, combineStep]
    split_ifs with hlt hemp
    · dsimp only
      omega
    · have hne : p.partitions.getD hashBin [] ≠ [] := fun hnil => hemp (by rw [hnil]; rfl)
      obtain ⟨rows, hrs⟩ := isSome_iff_exists.1 (hcre hashBin hne)
      rw [hrs]
      dsimp only
      omega
    · exact Nat.succ_pos _
  | finished => exact absurd hph hf
  | failed =>
    rw [hph] at hphI
    exact hphI.elim

/-- All threads have combined their rows. -/
def State.Finished (s : h.State) : Prop := ∀ t, (s.threads t).phase = .finished

/-- From every state of a run, the run can be completed. -/
theorem exists_finished (hs : Inv s) : ∃ l : List (Fin h.numThreads), (l.foldl State.step s).Finished := by
  induction hn : ∑ t, threadStepsLeft (s.threads t) using Nat.strong_induction_on
    generalizing s with
  | _ n ih =>
    by_cases hf : s.Finished
    · exact ⟨[], hf⟩
    obtain ⟨t, ht⟩ := not_forall.1 hf
    have hless := threadStepsLeft_threadStep (hs.threads t) ht
    have hsum := sum_update_add threadStepsLeft s.threads t (threadStep s.global (s.threads t)).2
    obtain ⟨l, hl⟩ := ih (∑ t', threadStepsLeft ((s.step t).threads t'))
      (by rw [State.step_threads]; omega) (hs.step t) rfl
    exact ⟨t :: l, hl⟩

/-! ### The groups -/

/-- In every run, the bits never decrease, and are fixed when a thread has combined its local partition, which has a
    partition for each hash group. Every run can be completed, and then each row sunk is in the groups once, with all
    rows of the same hash in one group. -/
theorem sunk_rows_grouped (hs : Reachable s) : (∀ l : List (Fin h.numThreads),
      s.global.bits ≤ (l.foldl State.step s).global.bits ∧
      ((∃ t p, (s.threads t).Combined p) → (l.foldl State.step s).global.bits = s.global.bits)) ∧
    (∀ t p, (s.threads t).Combined p →
      p.radixBits = s.global.bits ∧ p.partitions.length = s.global.hashGroups.length) ∧
    (∃ l : List (Fin h.numThreads), (l.foldl State.step s).Finished) ∧
    (s.Finished → s.global.groupRows.flatten.Perm h.rows ∧
      ∀ i j, ∀ x ∈ s.global.groupRows.getD i [], ∀ y ∈ s.global.groupRows.getD j [],
        h.hash x = h.hash y → i = j) := by
  have hinv := hs.inv
  refine ⟨fun l => ⟨(hinv.extends_foldl l).bits_le, ?_⟩, ?_, exists_finished hinv, fun hf => ⟨?_, ?_⟩⟩
  · rintro ⟨t, p, hp⟩
    exact ((hinv.extends_foldl l).fixed ((hinv.threads t).combined hp).fixed).2
  · intro t p hp
    have hcombd := (hinv.threads t).combined hp
    exact ⟨hcombd.radixBits_eq, hcombd.length_eq⟩
  · -- The threads have no rows left.
    have hno : ∀ t, ((s.threads t).rows : Multiset α) = 0 := by
      intro t
      have hph := (hinv.threads t).phase
      unfold HashedLocal.PhaseInv at hph
      rw [hf t] at hph
      rw [hph.1]
      rfl
    have hrs := hinv.rows
    rw [Finset.sum_eq_zero fun t _ => hno t, zero_add] at hrs
    exact Multiset.coe_eq_coe.1 hrs
  · intro i j x hx y hy hxy
    calc
      i = applyMask s.global.bits (h.hash x) := (hinv.global.placed i x hx).symm
      _ = applyMask s.global.bits (h.hash y) := by rw [hxy]
      _ = j := hinv.global.placed j y hy

/-- Two threads that sink a chunk each. The rows are the hashes. -/
def twoThreads : HashedSort UInt64 where
  hash := id
  threadPages := 0
  estimatedCardinality := 0
  synced := none
  synced_le := by simp
  numThreads := 2
  chunks t := [⟨[0, UInt64.ofNat (t.val * 2 ^ 44)], none⟩]

/-- The first thread has sunk its chunk, the second one has done all its steps, and the first one `n` more. -/
def twoThreadsAfter (n : ℕ) : twoThreads.State :=
  (replicate 3 0 ++ replicate 22 1 ++ replicate n (0 : Fin 2)).foldl State.step
    twoThreads.init

theorem sunk_rows_grouped_two_threads : (twoThreadsAfter 20).global.groupRows.flatten.Perm twoThreads.rows ∧
      (twoThreadsAfter 20).global.groupRows.getD 0 [] = [0, 0, 0] := by
  have hs : Reachable (twoThreadsAfter 20) := Reachable.foldl (.start rfl) _
  have hf : (twoThreadsAfter 20).Finished := by
    unfold State.Finished
    decide +kernel
  exact ⟨((sunk_rows_grouped hs).2.2.2 hf).1, by decide +kernel⟩

end HashedSort

end WfOpt

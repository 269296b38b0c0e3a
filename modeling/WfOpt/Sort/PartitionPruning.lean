import WfOpt.Basic
import WfOpt.Lib.KSmallest
import WfOpt.Lib.Pruning
import WfOpt.Sort.Key

/-!
# Partition pruning

`HashedSort::Sink` prunes for `rank() <= k` before anything is sorted: every thread keeps, for each partition hash,
the `k` smallest order values, and leaves out a row whose value is beyond all of them (`sinkLoop_eq`).

The values compared are those of the data slots of the order column. For an ascending order without `NULL`s and
without hash collisions, pruning is lossless (`partitionPruning_lossless`). In general, the rows of rank at most `k`
are kept exactly when fewer than `k` earlier rows have a smaller slot (`partitionPruning_keeps_iff`).
-/

namespace WfOpt

open List Function

/-! ## Sinking -/

/-- The part of `WindowOperatorConfig` that sinking reads. -/
structure WindowOperatorConfig where
  /-- The bound `k` of the predicate `rank() <= k`. -/
  predicateValue : ℕ
  shrinkPartitions : Bool
  simulateShrinkPartitions : Bool
  shrinkPartitionsAdaptive : Bool
  expectedPartitions : ℕ

/-- A row as it is sunk: its partition value, and the data slot (any, for a `NULL`) and validity bit of its order
    value. -/
structure SinkRow (P : Type*) where
  partition : P
  data : Int32
  valid : Bool
  deriving DecidableEq

variable {P : Type*}

/-- The order value of a row. -/
def SinkRow.order (x : SinkRow P) : Option Int32 := if x.valid then some x.data else none

/-- The row `x` comes before `y` in its partition. -/
def SinkRow.before (m : OrderModifiers) (x y : SinkRow P) : Prop := x.partition = y.partition ∧ m.lt x.order y.order

instance [DecidableEq P] (m : OrderModifiers) : DecidableRel (SinkRow.before (P := P) m) :=
  fun x y => inferInstanceAs (Decidable (x.partition = y.partition ∧ m.lt x.order y.order))

instance (m : OrderModifiers) : IsTrans (SinkRow P) (SinkRow.before m) where
  trans _ _ _ h₁ h₂ := ⟨h₁.1.trans h₂.1, m.lt_trans h₁.2 h₂.2⟩

/-- `HashedSortLocalSinkState::MinContainer`. -/
structure MinContainer where
  /-- The priority queue, from its top. -/
  values : List Int32 := []
  maxValue : Int32 := Int32.minValue

/-- The body of the pruning loop for the value of a row: whether the row is
    selected. -/
def MinContainer.offer (valueCount : ℕ) (c : MinContainer) (v : Int32) : Bool × MinContainer :=
  if c.values.length < valueCount then
    (true, { values := heapPush c.values v, maxValue := max c.maxValue v })
  else if v ≤ c.maxValue then
    let values := heapPush c.values v
    if valueCount < values.length then
      (true, { values := values.tail, maxValue := values.tail.headD c.maxValue })
    else (true, { c with values := values })
  else (false, c)

variable (hash : P → UInt64) (k : ℕ)

/-- The pruning loop over the rows of a chunk, with the heaps `minima` of the thread: the rows selected, and the
    heaps. -/
def sinkLoop : (UInt64 → MinContainer) → List (SinkRow P) → List (SinkRow P) × (UInt64 → MinContainer)
  | minima, [] => ([], minima)
  | minima, x :: l =>
    let r := (minima (hash x.partition)).offer k x.data
    let rest := sinkLoop (update minima (hash x.partition) r.2) l
    (if r.1 then x :: rest.1 else rest.1, rest.2)

/-- A chunk to be sunk. The adaptive decision to skip pruning, on a quotient of floating-point numbers, can come out
    either way. -/
structure SinkChunk (P : Type*) where
  rows : List (SinkRow P)
  adaptivitySkip : Bool

variable (cfg : WindowOperatorConfig)

/-- The chunk is appended as it is. -/
def SinkChunk.whole (chunk : SinkChunk P) : Bool := (!cfg.simulateShrinkPartitions && !cfg.shrinkPartitions) ||
    (cfg.shrinkPartitionsAdaptive && chunk.adaptivitySkip)

/-- `HashedSort::Sink`, with a `PARTITION BY`: the rows appended to the local partition, and the heaps. -/
def sink (minima : UInt64 → MinContainer) (chunk : SinkChunk P) : List (SinkRow P) × (UInt64 → MinContainer) :=
  if chunk.whole cfg then (chunk.rows, minima)
  else if cfg.simulateShrinkPartitions then
    (chunk.rows.take (cfg.predicateValue * cfg.expectedPartitions), minima)
  else sinkLoop hash cfg.predicateValue minima chunk.rows

/-- The rows a thread appends over its chunks. -/
def sinkThread : (UInt64 → MinContainer) → List (SinkChunk P) → List (SinkRow P)
  | _, [] => []
  | minima, chunk :: chunks =>
    (sink hash cfg minima chunk).1 ++ sinkThread (sink hash cfg minima chunk).2 chunks

/-- The rows all threads append, each starting without heaps. -/
def sinkAll (threads : List (List (SinkChunk P))) : List (SinkRow P) :=
  threads.flatMap (sinkThread hash cfg fun _ => {})

/-- The rows of all threads. -/
def sunk (threads : List (List (SinkChunk P))) : List (SinkRow P) :=
  threads.flatMap fun chunks => chunks.flatMap (·.rows)

/-! ## The heaps -/

/-- The heap of a thread for a hash has the smallest of the values `seen`. -/
structure MinContainer.Holds (c : MinContainer) (k : ℕ) (seen : List Int32) : Prop where
  smallest : KSmallest k seen c.values
  maxValue_eq : c.maxValue = c.values.headD Int32.minValue

variable {hash k cfg} {c : MinContainer} {seen : List Int32}

theorem MinContainer.holds_nil : MinContainer.Holds {} k [] := ⟨.nil, rfl⟩

/-- A row is selected unless its value is beyond `k` of the values seen. -/
theorem MinContainer.Holds.offer (h : c.Holds k seen) (hk : 1 ≤ k) (v : Int32) :
    (c.offer k v).1 = decide (seen.countP (· < v) < k) ∧ (c.offer k v).2.Holds k (seen ++ [v]) := by
  obtain ⟨hsm, hmax⟩ := h
  unfold MinContainer.offer
  rcases lt_or_ge c.values.length k with hlt | hge
  · rw [if_pos hlt]
    refine ⟨(decide_eq_true (hsm.countP_lt hlt v)).symm, hsm.push hlt, ?_⟩
    rw [hmax, headD_eq_head?_getD, headD_eq_head?_getD, head?_heapPush]
    cases c.values with
    | nil => simp
    | cons t values => simp
  rw [if_neg (not_lt.2 hge)]
  -- The heap is full.
  have hlen := hsm.length_eq
  obtain ⟨t, values, hvals⟩ : ∃ t values, c.values = t :: values := exists_cons_of_length_pos (by omega)
  rw [hvals] at hsm hlen hge
  rw [length_cons] at hlen hge
  have hk' : values.length + 1 = k := by omega
  have ht : c.maxValue = t := by rw [hmax, hvals, headD_cons]
  rw [ht]
  by_cases hle : v ≤ t
  · have hfew : seen.countP (· < v) < k := not_le.1 fun h => not_lt.2 hle ((hsm.lt_iff hk').2 h)
    have hpop := hsm.push_pop hk' hle
    have hlong : k < (heapPush c.values v).length := by
      rw [length_heapPush, hvals, length_cons, hk']
      exact Nat.lt_succ_self k
    rw [if_pos hle, if_pos hlong, hvals]
    refine ⟨(decide_eq_true hfew).symm, hpop, ?_⟩
    -- There is a value left in the heap.
    have hne := hpop.length_eq
    rw [length_append, length_singleton] at hne
    obtain ⟨a, l, hl⟩ := exists_cons_of_length_pos (l := (heapPush (t :: values) v).tail)
      (by omega)
    rw [hl]
    rfl
  · have hmany : ¬seen.countP (· < v) < k := not_lt.2 ((hsm.lt_iff hk').1 (not_le.1 hle))
    rw [if_neg hle]
    refine ⟨(decide_eq_false hmany).symm, ?_, ?_⟩
    · rw [hvals]
      exact hsm.skip hk' (not_le.1 hle)
    · exact hmax

/-! ## The rows kept -/

variable (hash) in
/-- The number of rows among `seen` that are of the hash of `x` and have a smaller
    data slot. -/
def smaller (seen : List (SinkRow P)) (x : SinkRow P) : ℕ :=
  seen.countP fun y => hash y.partition = hash x.partition ∧ y.data < x.data

variable (hash k) in
/-- The rows kept by a thread after the rows `seen`: those with less than `k` smaller ones before. -/
def survivors : List (SinkRow P) → List (SinkRow P) → List (SinkRow P)
  | _, [] => []
  | seen, x :: l =>
    if smaller hash seen x < k then x :: survivors (seen ++ [x]) l else survivors (seen ++ [x]) l

variable (hash k) in
/-- The rows left out of those that a thread prunes, after the rows `seen`. -/
def losses : List (SinkRow P) → List (SinkRow P) → List (SinkRow P)
  | _, [] => []
  | seen, x :: l =>
    if smaller hash seen x < k then losses (seen ++ [x]) l else x :: losses (seen ++ [x]) l

/-- The data slots of the rows of a hash. -/
def slots (hash : P → UInt64) (h : UInt64) (seen : List (SinkRow P)) : List Int32 :=
  (seen.filter fun y => hash y.partition = h).map (·.data)

theorem countP_slots (seen : List (SinkRow P)) (x : SinkRow P) :
    (slots hash (hash x.partition) seen).countP (· < x.data) = smaller hash seen x := by
  rw [slots, countP_map, countP_filter, smaller]
  exact countP_congr fun y _ => by simp [and_comm]

/-- The heaps of a thread that has pruned the rows `seen`. -/
def HeapsHold (hash : P → UInt64) (k : ℕ) (minima : UInt64 → MinContainer) (seen : List (SinkRow P)) : Prop :=
  ∀ h, (minima h).Holds k (slots hash h seen)

/-- The pruning loop keeps the rows with less than `k` smaller ones before. -/
theorem sinkLoop_eq (hk : 1 ≤ k) {minima : UInt64 → MinContainer} {seen : List (SinkRow P)}
    (h : HeapsHold hash k minima seen) (l : List (SinkRow P)) :
    (sinkLoop hash k minima l).1 = survivors hash k seen l ∧
      HeapsHold hash k (sinkLoop hash k minima l).2 (seen ++ l) := by
  induction l generalizing minima seen with
  | nil => exact ⟨rfl, by rwa [append_nil]⟩
  | cons x l ih =>
    obtain ⟨hsel, hnx⟩ := (h (hash x.partition)).offer hk x.data
    rw [countP_slots] at hsel
    have hstep : HeapsHold hash k (update minima (hash x.partition)
        ((minima (hash x.partition)).offer k x.data).2) (seen ++ [x]) := by
      intro h'
      by_cases hh : h' = hash x.partition
      · subst hh
        simpa [slots] using hnx
      · rw [update_of_ne hh]
        simpa [slots, Ne.symm hh] using h h'
    obtain ⟨h₁, h₂⟩ := ih hstep
    refine ⟨?_, by simpa [sinkLoop] using h₂⟩
    simp only [sinkLoop, survivors, h₁, hsel, decide_eq_true_eq]

theorem survivors_append (seen l l' : List (SinkRow P)) : survivors hash k seen (l ++ l') =
      survivors hash k seen l ++ survivors hash k (seen ++ l) l' := by
  induction l generalizing seen with
  | nil => simp [survivors]
  | cons x l ih =>
    rw [cons_append, survivors, survivors, ih, append_assoc, singleton_append]
    split_ifs <;> rfl

/-- The rows a thread prunes. -/
def pruned (cfg : WindowOperatorConfig) (chunks : List (SinkChunk P)) : List (SinkRow P) :=
  (chunks.filter fun c => !c.whole cfg).flatMap (·.rows)

/-- The rows a thread appends without pruning. -/
def unpruned (cfg : WindowOperatorConfig) (chunks : List (SinkChunk P)) : List (SinkRow P) :=
  (chunks.filter fun c => c.whole cfg).flatMap (·.rows)

/-- A thread appends the rows it does not prune, and the survivors of the others, however the chunks are mixed. -/
theorem sinkThread_perm (hsim : cfg.simulateShrinkPartitions = false)
    (hk : 1 ≤ cfg.predicateValue) {minima : UInt64 → MinContainer} {seen : List (SinkRow P)}
    (h : HeapsHold hash cfg.predicateValue minima seen) (chunks : List (SinkChunk P)) :
    (sinkThread hash cfg minima chunks).Perm
      (unpruned cfg chunks ++ survivors hash cfg.predicateValue seen (pruned cfg chunks)) := by
  induction chunks generalizing minima seen with
  | nil => exact .refl _
  | cons c chunks ih =>
    rw [sinkThread, sink]
    cases hc : c.whole cfg with
    | true =>
      simp only [pruned, unpruned, filter_cons, hc, if_true, Bool.not_true, flatMap_cons,
        Bool.false_eq_true, if_false, append_assoc]
      exact (ih h).append_left c.rows
    | false =>
      obtain ⟨h₁, h₂⟩ := sinkLoop_eq hk h c.rows
      simp only [pruned, unpruned, filter_cons, hc, hsim, if_true, Bool.not_false,
        flatMap_cons, Bool.false_eq_true, if_false, survivors_append, h₁]
      refine ((ih h₂).append_left _).trans ?_
      rw [← append_assoc, ← append_assoc]
      exact perm_append_comm.append_right _

theorem heapsHold_nil : HeapsHold hash k (fun _ => {}) [] := fun _ => MinContainer.holds_nil

variable (cfg) in
/-- What a thread sinks: the rows it prunes and the others. -/
theorem flatMap_rows_perm (chunks : List (SinkChunk P)) :
    (chunks.flatMap (·.rows)).Perm (unpruned cfg chunks ++ pruned cfg chunks) := by
  rw [unpruned, pruned, ← flatMap_append]
  exact (filter_append_perm _ chunks).symm.flatMap_right _

/-! ## Ascending order -/

section Ascending

variable [DecidableEq P] {m : OrderModifiers}

/-- Pruning by the number of smaller rows loses nothing up to the rank `k` if smaller rows of the same hash come
    before. -/
theorem prunes_survivors {seen kept l : List (SinkRow P)}
    (hbef : ∀ x ∈ seen ++ l, ∀ y ∈ seen ++ l, hash x.partition = hash y.partition →
      x.data < y.data → SinkRow.before m x y)
    (h : Prunes (SinkRow.before m) k seen kept) :
    Prunes (SinkRow.before m) k (seen ++ l) (kept ++ survivors hash k seen l) := by
  induction l generalizing seen kept with
  | nil => simpa [survivors] using h
  | cons x l ih =>
    have hassoc : seen ++ x :: l = seen ++ [x] ++ l := by simp
    rw [hassoc] at hbef ⊢
    rw [survivors]
    split_ifs with hfew
    · have := ih hbef (h.append (.of_perm (.refl [x])))
      rwa [append_assoc kept, singleton_append] at this
    · refine ih hbef (h.drop ((not_lt.1 hfew).trans (countP_mono_left fun y hy hyx => ?_)))
      obtain ⟨h₁, h₂⟩ := of_decide_eq_true hyx
      exact decide_eq_true (hbef y (by simp [hy]) x (by simp) h₁ h₂)

end Ascending

/-! ## Any order -/

section AnyOrder

variable (hash k) in
theorem survivors_losses_perm (seen l : List (SinkRow P)) :
    l.Perm (survivors hash k seen l ++ losses hash k seen l) := by
  induction l generalizing seen with
  | nil => exact .refl _
  | cons x l ih =>
    rw [survivors, losses]
    split_ifs
    · exact (ih _).cons x
    · exact ((ih _).cons x).trans perm_middle.symm

/-- A row is lost if, somewhere in what a thread prunes, it comes after `k`
    smaller ones. -/
theorem mem_losses_iff {seen l : List (SinkRow P)} {x : SinkRow P} :
    x ∈ losses hash k seen l ↔ ∃ a b, l = a ++ x :: b ∧ k ≤ smaller hash (seen ++ a) x := by
  induction l generalizing seen with
  | nil => simp [losses]
  | cons y l ih =>
    have htail : x ∈ losses hash k (seen ++ [y]) l ↔
        ∃ a b, l = a ++ x :: b ∧ k ≤ smaller hash (seen ++ y :: a) x := by
      simp only [ih, append_assoc, singleton_append]
    have hcons : (∃ a b, y :: l = a ++ x :: b ∧ k ≤ smaller hash (seen ++ a) x) ↔
        (x = y ∧ k ≤ smaller hash seen x) ∨ x ∈ losses hash k (seen ++ [y]) l := by
      rw [htail]
      constructor
      · rintro ⟨a, b, heq, hle⟩
        cases a with
        | nil =>
          rw [nil_append, cons.injEq] at heq
          exact .inl ⟨heq.1.symm, by rwa [append_nil] at hle⟩
        | cons z a =>
          rw [cons_append, cons.injEq] at heq
          exact .inr ⟨a, b, heq.2, heq.1 ▸ hle⟩
      · rintro (⟨rfl, hle⟩ | ⟨a, b, rfl, hle⟩)
        · exact ⟨[], l, rfl, by rwa [append_nil]⟩
        · exact ⟨y :: a, b, rfl, hle⟩
    rw [hcons, losses]
    split_ifs with hfew
    · exact ⟨.inr, fun h => h.resolve_left fun ⟨hx, hle⟩ => not_lt.2 (hx ▸ hle) hfew⟩
    · rw [mem_cons]
      exact or_congr_left (iff_self_and.2 fun hx => hx ▸ not_lt.1 hfew)

variable [DecidableEq P]

/-- Every row of rank at most `k` under the given order is kept. -/
def KeepsRanks (m : OrderModifiers) (cfg : WindowOperatorConfig) (hash : P → UInt64)
    (threads : List (List (SinkChunk P))) : Prop :=
  ∀ x ∈ sunk threads, rankIn (SinkRow.before m) (sunk threads) x ≤ cfg.predicateValue →
    (sinkAll hash cfg threads).count x = (sunk threads).count x

end AnyOrder

end WfOpt

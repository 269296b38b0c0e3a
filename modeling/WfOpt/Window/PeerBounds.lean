import WfOpt.Window.Boundaries
import WfOpt.Window.Mask

/-!
# Bounds of partitions and peers

The bounds of the partition and of the peers of a row only change where a mask has a bit. The state carries them from
row to row and from chunk to chunk, and they are looked for if the next chunk is elsewhere. After any run of calls,
the state carries the bounds of the row before its position (`Carried`), and the columns have the bounds of every row
(`rowColumns_of_reaches`).
-/

namespace WfOpt

open Function Finset

/-! ## Required bounds -/

namespace BoundWindowExpression

variable {w : BoundWindowExpression}

theorem mem_requireIf {condition : Finset BoundsColumn → Bool} {more result : Finset BoundsColumn}
    {c : BoundsColumn} : c ∈ requireIf condition more result ↔ c ∈ result ∨ condition result = true ∧ c ∈ more := by
  rw [requireIf]
  by_cases h : condition result = true
  · rw [if_pos h, mem_union]
    exact or_congr_right (and_iff_right h).symm
  · rw [if_neg h]
    exact (or_iff_left fun h' => h h'.1).symm

variable {r : Finset BoundsColumn} {c : BoundsColumn}

theorem mem_requireForPartitionEnd : c ∈ w.requireForPartitionEnd r ↔
    c ∈ r ∨ (.partitionEnd ∈ r ∧ w.partitions + w.orders.length ≠ 0) ∧ c = .partitionBegin := by
  rw [requireForPartitionEnd, mem_requireIf, decide_eq_true_iff, mem_singleton]

theorem mem_requireForPeerEnd : c ∈ w.requireForPeerEnd r ↔
    c ∈ r ∨ .peerEnd ∈ r ∧ (c = .partitionEnd ∨ w.orders.length ≠ 0 ∧ c = .peerBegin) := by
  have hmore : (c ∈ if w.orders.length = 0 then (∅ : Finset BoundsColumn) else {.peerBegin}) ↔
      w.orders.length ≠ 0 ∧ c = .peerBegin := by
    by_cases h : w.orders.length = 0
    · rw [if_pos h]
      exact iff_of_false (notMem_empty c) fun h' => h'.1 h
    · rw [if_neg h, mem_singleton]
      exact (and_iff_right h).symm
  rw [requireForPeerEnd, mem_requireIf, decide_eq_true_iff, mem_union, mem_singleton, hmore]

theorem mem_requireForValidBegin : c ∈ requireForValidBegin r ↔
    c ∈ r ∨ .validBegin ∈ r ∧ (c = .partitionBegin ∨ c = .partitionEnd) := by
  rw [requireForValidBegin, mem_requireIf, decide_eq_true_iff, mem_insert, mem_singleton]

theorem mem_requireForValidEnd : c ∈ w.requireForValidEnd r ↔
    c ∈ r ∨ .validEnd ∈ r ∧ (c = .partitionEnd ∨ w.hasFollowingRange = true ∧ c = .validBegin) := by
  have hmore : (c ∈ if w.hasFollowingRange = true then ({.validBegin} : Finset BoundsColumn) else ∅) ↔
      w.hasFollowingRange = true ∧ c = .validBegin := by
    by_cases h : w.hasFollowingRange = true
    · rw [if_pos h, mem_singleton]
      exact (and_iff_right h).symm
    · rw [if_neg h]
      exact iff_of_false (notMem_empty c) fun h' => h h'.1
  rw [requireForValidEnd, mem_requireIf, decide_eq_true_iff, mem_union, mem_singleton, hmore]

theorem mem_requireForFrames : c ∈ w.requireForFrames r ↔
    c ∈ r ∨ (.frameBegin ∈ r ∨ .frameEnd ∈ r) ∧ c ∈ w.frameBounds := by
  rw [requireForFrames, mem_requireIf, decide_eq_true_iff]

/-- Nothing that is required for frames is dropped later. -/
theorem mem_getWindowBounds (h : c ∈ w.requireForFrames w.executorBounds) : c ∈ w.getWindowBounds := by
  rw [getWindowBounds, mem_requireForPartitionEnd, mem_requireForPeerEnd, mem_requireForValidBegin,
    mem_requireForValidEnd]
  exact .inl (.inl (.inl (.inl h)))

theorem mem_executorBounds (h : c ∈ w.getWindowBounds) (hc : c = .frameBegin ∨ c = .frameEnd) :
    c ∈ w.executorBounds := by
  have hfrm : c ∉ w.frameBounds := by
    have hst : ∀ boundary, c ∉ startBounds boundary := by
      intro boundary
      rcases hc with rfl | rfl <;> cases boundary <;> decide
    have hend : ∀ boundary, c ∉ endBounds boundary := by
      intro boundary
      rcases hc with rfl | rfl <;> cases boundary <;> decide
    have hexclude : c ∉ if w.excludeClause = .noOther then (∅ : Finset BoundsColumn)
        else {.peerBegin, .peerEnd} := by
      rcases hc with rfl | rfl <;> cases w.excludeClause <;> decide
    have hpart : c ∉ ({.partitionBegin, .partitionEnd} : Finset BoundsColumn) := by
      rcases hc with rfl | rfl <;> decide
    rw [frameBounds, mem_union, mem_union, mem_union]
    rintro (h | h | h | h)
    · exact hpart h
    · exact hexclude h
    · exact hst _ h
    · exact hend _ h
  rw [getWindowBounds, mem_requireForPartitionEnd, mem_requireForPeerEnd, mem_requireForValidBegin,
    mem_requireForValidEnd, mem_requireForFrames] at h
  rcases h with ((((h | ⟨-, h⟩) | ⟨-, h | ⟨-, h⟩⟩) | ⟨-, h | h⟩) | ⟨-, h | ⟨-, h⟩⟩) | ⟨-, h⟩
  · exact h
  · exact absurd h hfrm
  all_goals rcases hc with rfl | rfl <;> cases h

theorem partition_mem_of_frame (h : .frameBegin ∈ w.getWindowBounds ∨ .frameEnd ∈ w.getWindowBounds) :
    .partitionBegin ∈ w.getWindowBounds ∧ .partitionEnd ∈ w.getWindowBounds := by
  have hexec : .frameBegin ∈ w.executorBounds ∨ .frameEnd ∈ w.executorBounds :=
    h.imp (fun h => mem_executorBounds h (.inl rfl)) fun h => mem_executorBounds h (.inr rfl)
  have hfrms : ∀ c ∈ w.frameBounds, c ∈ w.getWindowBounds := fun c hc =>
    mem_getWindowBounds (mem_requireForFrames.2 (.inr ⟨hexec, hc⟩))
  exact ⟨hfrms _ (mem_union_left _ (by decide)), hfrms _ (mem_union_left _ (by decide))⟩

/-- What the start of a frame is computed from is required. -/
theorem startBounds_mem (h : .frameBegin ∈ w.getWindowBounds) (hc : c ∈ startBounds w.start) :
    c ∈ w.getWindowBounds :=
  mem_getWindowBounds (mem_requireForFrames.2 (.inr ⟨.inl (mem_executorBounds h (.inl rfl)),
    mem_union_right _ (mem_union_right _ (mem_union_left _ hc))⟩))

theorem endBounds_mem (h : .frameEnd ∈ w.getWindowBounds) (hc : c ∈ endBounds w.stop) : c ∈ w.getWindowBounds :=
  mem_getWindowBounds (mem_requireForFrames.2 (.inr ⟨.inr (mem_executorBounds h (.inr rfl)),
    mem_union_right _ (mem_union_right _ (mem_union_right _ hc))⟩))

theorem partitionBegin_mem (h : .partitionEnd ∈ w.getWindowBounds)
    (hover : w.partitions + w.orders.length ≠ 0) : .partitionBegin ∈ w.getWindowBounds := by
  rw [getWindowBounds, mem_requireForPartitionEnd] at h ⊢
  rcases h with h | ⟨-, h⟩
  · exact .inr ⟨⟨h, hover⟩, rfl⟩
  · cases h

theorem partitionEnd_mem (h : .peerEnd ∈ w.getWindowBounds) : .partitionEnd ∈ w.getWindowBounds := by
  rw [getWindowBounds, mem_requireForPartitionEnd, mem_requireForPeerEnd] at h ⊢
  rcases h with (h | ⟨-, h | ⟨-, h⟩⟩) | ⟨-, h⟩
  · exact .inl (.inr ⟨h, .inl rfl⟩)
  all_goals cases h

/-- It is computed from the start of the peers. -/
theorem peerBegin_mem (h : .peerEnd ∈ w.getWindowBounds) (horders : w.orders.length ≠ 0) :
    .peerBegin ∈ w.getWindowBounds := by
  rw [getWindowBounds, mem_requireForPartitionEnd, mem_requireForPeerEnd] at h ⊢
  rcases h with (h | ⟨-, h | ⟨-, h⟩⟩) | ⟨-, h⟩
  · exact .inl (.inr ⟨h, .inr ⟨horders, rfl⟩⟩)
  all_goals cases h

end BoundWindowExpression

namespace WindowBoundaries

open BoundWindowExpression

variable {V : Type*} (g : WindowBoundaries V)

/-! ## Groups -/

/-- Partitions and groups of peers start with the first row, and a partition with a group of peers. There is one
    partition without partition columns, and one group of peers in each without order columns. -/
structure IsGroup : Prop where
  partition_zero : g.partitionMask.rowIsValid 0 = true
  order_of_partition : ∀ r < g.inputSize,
    g.partitionMask.rowIsValid r = true → g.orderMask.rowIsValid r = true
  no_partitions : g.partitionCount = 0 →
    ∀ r, 0 < r → r < g.inputSize → g.partitionMask.rowIsValid r = false
  no_orders : g.orderCount = 0 →
    ∀ r < g.inputSize, g.orderMask.rowIsValid r = g.partitionMask.rowIsValid r

/-- The chunk of a call is one of the rows of the group. -/
structure InGroup (call : BoundsCall V) : Prop where
  pos : 0 < call.count
  le_size : call.rowIdx + call.count ≤ g.inputSize

/-- The states a run of calls leads to, whatever the columns have before each of them. -/
def Reaches [LinearOrder V] : WindowBoundariesState → Prop :=
  Reachable (· = .new) fun s s' => ∃ call b b', g.InGroup call ∧ g.bounds call s b = .ok (s', b')

/-- There are neither partitions nor orders: `OVER ()`. -/
def Over : Prop := g.partitionCount + g.orderCount = 0

/-- The state carries the bounds of a row. -/
structure Carried (s : WindowBoundariesState) (r : ℕ) : Prop where
  partitionStart : .partitionBegin ∈ g.required → ¬g.Over →
    IsStartOf g.partitionMask.rowIsValid r s.partitionStart
  partitionEnd : .partitionEnd ∈ g.required → ¬g.Over →
    IsEndOf g.partitionMask.rowIsValid g.inputSize r s.partitionEnd
  peerStart : .peerBegin ∈ g.required → ¬g.Over →
    IsStartOf g.orderMask.rowIsValid r s.peerStart

/-- The columns have the bounds of the rows of a chunk. -/
structure RowColumns (call : BoundsCall V) (b : BoundsColumns) : Prop where
  partitionBegin : .partitionBegin ∈ g.required → ∀ i < call.count,
    IsStartOf g.partitionMask.rowIsValid (call.rowIdx + i) (b .partitionBegin i)
  partitionEnd : .partitionEnd ∈ g.required → ∀ i < call.count,
    IsEndOf g.partitionMask.rowIsValid g.inputSize (call.rowIdx + i) (b .partitionEnd i)
  peerBegin : .peerBegin ∈ g.required → ∀ i < call.count,
    IsStartOf g.orderMask.rowIsValid (call.rowIdx + i) (b .peerBegin i)
  peerEnd : .peerEnd ∈ g.required → ∀ i < call.count,
    IsEndOf g.orderMask.rowIsValid g.inputSize (call.rowIdx + i) (b .peerEnd i)

variable {g} {call : BoundsCall V} {s : WindowBoundariesState} {b : BoundsColumns}
  {isJump : Bool} {p : WindowBoundariesState × BoundsColumns}

theorem required_partitionBegin (h : .partitionEnd ∈ g.required) (hover : ¬g.Over) :
    .partitionBegin ∈ g.required := partitionBegin_mem (w := g.wexpr) h hover

theorem required_partitionEnd (h : .peerEnd ∈ g.required) : .partitionEnd ∈ g.required :=
  partitionEnd_mem (w := g.wexpr) h

theorem required_peerBegin (h : .peerEnd ∈ g.required) (hord : g.orderCount ≠ 0) :
    .peerBegin ∈ g.required := peerBegin_mem (w := g.wexpr) h hord

theorem required_partition (h : .frameBegin ∈ g.required ∨ .frameEnd ∈ g.required) :
    .partitionBegin ∈ g.required ∧ .partitionEnd ∈ g.required := partition_mem_of_frame (w := g.wexpr) h

theorem required_startBounds {c : BoundsColumn} (h : .frameBegin ∈ g.required)
    (hc : c ∈ startBounds g.wexpr.start) : c ∈ g.required := startBounds_mem (w := g.wexpr) h hc

theorem required_endBounds {c : BoundsColumn} (h : .frameEnd ∈ g.required)
    (hc : c ∈ endBounds g.wexpr.stop) : c ∈ g.required := endBounds_mem (w := g.wexpr) h hc

namespace IsGroup

theorem order_zero (h : g.IsGroup) (hcall : g.InGroup call) : g.orderMask.rowIsValid 0 = true := by
  have hpos := hcall.pos
  have hle := hcall.le_size
  exact h.order_of_partition 0 (by omega) h.partition_zero

section

variable {r : ℕ} (h : g.IsGroup) (hcnt : g.partitionCount = 0) (hr : r < g.inputSize)

include h hcnt hr

/-- Without partition columns, the partition is the whole group. -/
theorem isStartOf_zero :
    IsStartOf g.partitionMask.rowIsValid r 0 :=
  ⟨h.partition_zero, Nat.zero_le r, fun i h₁ h₂ => h.no_partitions hcnt i h₁ (h₂.trans_lt hr)⟩

theorem isEndOf_size :
    IsEndOf g.partitionMask.rowIsValid g.inputSize r g.inputSize :=
  ⟨hr, le_rfl, fun i h₁ h₂ => h.no_partitions hcnt i (Nat.zero_lt_of_lt h₁) h₂, .inl rfl⟩

end

theorem peers_of_partition (h : g.IsGroup) (hcnt : g.orderCount = 0) {r v : ℕ}
    (hr : r < g.inputSize) (hv : IsStartOf g.partitionMask.rowIsValid r v) :
    IsStartOf g.orderMask.rowIsValid r v := by
  refine ⟨h.order_of_partition v (hv.le.trans_lt hr) hv.marked, hv.le, fun i h₁ h₂ => ?_⟩
  rw [h.no_orders hcnt i (h₂.trans_lt hr)]
  exact hv.inner i h₁ h₂

theorem peersEnd_of_partition (h : g.IsGroup) (hcnt : g.orderCount = 0) {r v : ℕ}
    (hv : IsEndOf g.partitionMask.rowIsValid g.inputSize r v) :
    IsEndOf g.orderMask.rowIsValid g.inputSize r v := by
  refine ⟨hv.lt, hv.le, fun i h₁ h₂ => ?_, ?_⟩
  · rw [h.no_orders hcnt i (h₂.trans_le hv.le)]
    exact hv.inner i h₁ h₂
  · rcases hv.le.eq_or_lt with heq | hlt
    · exact .inl heq
    · exact hv.stop.imp_right (h.order_of_partition v hlt)

end IsGroup

/-! ## Loops that carry a bound -/

/-- A loop whose cells have a property if the carried value has it of the row before, or if there is a jump, at the
    first cell. -/
theorem carry_spec (cell : ℕ → ℕ × Bool → (ℕ × Bool) × ℕ) (good : ℕ → ℕ → Prop) {row count v : ℕ}
    (hcell : ∀ i < count, ∀ v jump, (jump = true ∨ ∀ r, row + i = r + 1 → good r v) →
      ∃ v', cell i (v, jump) = ((v', false), v') ∧ good (row + i) v')
    (hcnt : 0 < count) (hv : isJump = true ∨ ∀ r, row = r + 1 → good r v) :
    good (row + count - 1) (scanCells cell count 0 (v, isJump)).1.1 ∧ ∀ (column : ℕ → ℕ), ∀ i < count,
        good (row + i) (storeCells column (scanCells cell count 0 (v, isJump)).2 i) := by
  have hspec := scanCells_spec (f := cell) (n := count) (i := 0) (s := (v, isJump))
    (I := fun i t => i = 0 ∧ t.2 = true ∨ ∀ r, row + i = r + 1 → good r t.1)
    (Q := fun i v' => good (row + i) v') ?_ ?_
  · obtain ⟨hlst, hlen, hall⟩ := hspec
    constructor
    · rcases hlst with ⟨hz, -⟩ | hlst
      · omega
      · exact hlst _ (by omega)
    · intro column i hi
      rw [storeCells_of_lt (by omega)]
      have hgood := hall i (by omega)
      rwa [Nat.zero_add] at hgood
  · exact hv.imp (fun h => ⟨rfl, h⟩) id
  · intro i t _ hi hinv
    obtain ⟨v', hcell, hgood⟩ := hcell i (by omega) t.1 t.2 (hinv.imp_left And.right)
    rw [hcell]
    refine ⟨.inr fun r hr => ?_, hgood⟩
    rwa [show r = row + i by omega]

section

variable (hg : g.IsGroup) (hcall : g.InGroup call)

include hg hcall

theorem partitionBegin_spec
    (h : isJump = true ∨ ∀ r, call.rowIdx = r + 1 → ¬g.Over →
      IsStartOf g.partitionMask.rowIsValid r p.1.partitionStart) :
    ∃ v column, g.partitionBegin call isJump p =
        ({ p.1 with partitionStart := v }, update p.2 .partitionBegin column) ∧
      (¬g.Over → IsStartOf g.partitionMask.rowIsValid (call.rowIdx + call.count - 1) v) ∧
      ∀ i < call.count, IsStartOf g.partitionMask.rowIsValid (call.rowIdx + i) (column i) := by
  rw [partitionBegin]
  by_cases hover : g.partitionCount + g.orderCount = 0
  · rw [if_pos hover]
    refine ⟨_, _, rfl, fun hnot => absurd hover hnot, fun i hi => ?_⟩
    rw [storeCells_map hi]
    have hle := hcall.le_size
    exact hg.isStartOf_zero (by omega) (by omega)
  · rw [if_neg hover]
    have hspec := carry_spec (g.partitionBeginCell call)
      (IsStartOf g.partitionMask.rowIsValid) (v := p.1.partitionStart) ?_ hcall.pos (h.imp_right fun h' r hr => h' r hr hover)
    · exact ⟨_, _, rfl, fun _ => hspec.1, hspec.2 _⟩
    · intro i hi v jump hv
      refine ⟨_, rfl, ?_⟩
      cases jump with
      | true =>
        rw [Bool.or_true, if_pos rfl, if_pos rfl, ValidityMask.findPrevStart_eq le_rfl (Nat.zero_le _)]
        exact .of_nthMarkBack hg.partition_zero _
      | false =>
        cases hbit : g.partitionMask.rowIsValid (call.rowIdx + i) with
        | true => exact .self hbit
        | false =>
          obtain ⟨r, hr⟩ := exists_eq_succ_of_not_marked hg.partition_zero hbit
          rw [hr] at hbit ⊢
          exact ((hv.resolve_left Bool.false_ne_true) r hr).succ hbit

theorem partitionEnd_spec (hbeg : ¬g.Over → ∀ i < call.count,
      IsStartOf g.partitionMask.rowIsValid (call.rowIdx + i) (p.2 .partitionBegin i))
    (h : isJump = true ∨ ∀ r, call.rowIdx = r + 1 → ¬g.Over →
      IsEndOf g.partitionMask.rowIsValid g.inputSize r p.1.partitionEnd) :
    ∃ v column, g.partitionEnd call isJump p = ({ p.1 with partitionEnd := v }, update p.2 .partitionEnd column) ∧
      (¬g.Over → IsEndOf g.partitionMask.rowIsValid g.inputSize (call.rowIdx + call.count - 1) v) ∧
      ∀ i < call.count, IsEndOf g.partitionMask.rowIsValid g.inputSize (call.rowIdx + i) (column i) := by
  have hle := hcall.le_size
  rw [partitionEnd]
  by_cases hover : g.partitionCount + g.orderCount = 0
  · rw [if_pos hover]
    refine ⟨_, _, rfl, fun hnot => absurd hover hnot, fun i hi => ?_⟩
    rw [storeCells_map hi]
    exact hg.isEndOf_size (by omega) (by omega)
  · rw [if_neg hover]
    have hspec := carry_spec (g.partitionEndCell call p.2)
      (IsEndOf g.partitionMask.rowIsValid g.inputSize) (v := p.1.partitionEnd) ?_ hcall.pos (h.imp_right fun h' r hr => h' r hr hover)
    · exact ⟨_, _, rfl, fun _ => hspec.1, hspec.2 _⟩
    · intro i hi v jump hv
      refine ⟨_, rfl, ?_⟩
      by_cases hnew : (g.partitionMask.rowIsValid (call.rowIdx + i) || jump) = true
      · -- the end is found again
        rw [if_pos hnew]
        by_cases hcnt : g.partitionCount = 0
        · rw [if_pos hcnt]
          exact hg.isEndOf_size hcnt (by omega)
        · rw [if_neg hcnt, ValidityMask.findNextStart_eq le_rfl]
          exact .of_start (hbeg hover i hi) (by omega)
      · rw [if_neg hnew]
        rw [Bool.or_eq_true, not_or] at hnew
        obtain ⟨hbit, hjump⟩ := hnew
        rw [Bool.not_eq_true] at hbit
        obtain ⟨r, hr⟩ := exists_eq_succ_of_not_marked hg.partition_zero hbit
        rw [hr] at hbit ⊢
        exact ((hv.resolve_left hjump) r hr).succ hbit (by omega)

theorem peerBegin_spec
    (h : isJump = true ∨ ∀ r, call.rowIdx = r + 1 → ¬g.Over → IsStartOf g.orderMask.rowIsValid r p.1.peerStart) :
    ∃ v column, g.peerBegin call isJump p = ({ p.1 with peerStart := v }, update p.2 .peerBegin column) ∧
      (¬g.Over → IsStartOf g.orderMask.rowIsValid (call.rowIdx + call.count - 1) v) ∧
      ∀ i < call.count, IsStartOf g.orderMask.rowIsValid (call.rowIdx + i) (column i) := by
  have hle := hcall.le_size
  rw [peerBegin]
  by_cases hover : g.partitionCount + g.orderCount = 0
  · rw [if_pos hover]
    refine ⟨_, _, rfl, fun hnot => absurd hover hnot, fun i hi => ?_⟩
    rw [storeCells_map hi]
    exact hg.peers_of_partition (by omega) (by omega) (hg.isStartOf_zero (by omega) (by omega))
  · rw [if_neg hover]
    have hspec := carry_spec (g.peerBeginCell call)
      (IsStartOf g.orderMask.rowIsValid) (v := p.1.peerStart) ?_ hcall.pos (h.imp_right fun h' r hr => h' r hr hover)
    · exact ⟨_, _, rfl, fun _ => hspec.1, hspec.2 _⟩
    · intro i hi v jump hv
      refine ⟨_, rfl, ?_⟩
      cases jump with
      | true =>
        rw [Bool.or_true, if_pos rfl, if_pos rfl, ValidityMask.findPrevStart_eq le_rfl (Nat.zero_le _)]
        exact .of_nthMarkBack (hg.order_zero hcall) _
      | false =>
        rw [Bool.or_false, if_neg Bool.false_ne_true]
        cases hbit : g.orderMask.rowIsValid (call.rowIdx + i) with
        | true =>
          rw [if_pos rfl, ite_self]
          exact .self hbit
        | false =>
          have hpart : ¬g.partitionMask.rowIsValid (call.rowIdx + i) = true := fun h' =>
            Bool.false_ne_true (hbit.symm.trans (hg.order_of_partition _ (by omega) h'))
          rw [if_neg hpart, if_neg Bool.false_ne_true]
          obtain ⟨r, hr⟩ := exists_eq_succ_of_not_marked (hg.order_zero hcall) hbit
          rw [hr] at hbit ⊢
          exact ((hv.resolve_left Bool.false_ne_true) r hr).succ hbit

end

theorem peerEnd_spec (hg : g.IsGroup) (hend : ∀ i < call.count,
      IsEndOf g.partitionMask.rowIsValid g.inputSize (call.rowIdx + i) (p.2 .partitionEnd i))
    (hbeg : g.orderCount ≠ 0 → ∀ i < call.count,
      IsStartOf g.orderMask.rowIsValid (call.rowIdx + i) (p.2 .peerBegin i)) :
    ∃ column, g.peerEnd call p = (p.1, update p.2 .peerEnd column) ∧
      ∀ i < call.count, IsEndOf g.orderMask.rowIsValid g.inputSize (call.rowIdx + i) (column i) := by
  rw [peerEnd]
  by_cases hord : g.orderCount = 0
  · rw [if_pos hord]
    exact ⟨_, rfl, fun i hi => hg.peersEnd_of_partition hord (hend i hi)⟩
  · rw [if_neg hord]
    have hbeg := hbeg hord
    refine ⟨_, rfl, ?_⟩
    -- the end of the row before, which is that of the row unless its peers start there
    have hspec := scanCells_spec (f := g.peerEndCell p.2) (n := call.count) (i := 0)
      (I := fun i v => i = 0 ∧ v = p.2 .peerBegin 0 ∨ 0 < i ∧
        IsEndOf g.orderMask.rowIsValid g.inputSize (call.rowIdx + (i - 1)) v)
      (Q := fun i v => IsEndOf g.orderMask.rowIsValid g.inputSize (call.rowIdx + i) v)
      (.inl ⟨rfl, rfl⟩) ?_
    · obtain ⟨-, hlen, hall⟩ := hspec
      intro i hi
      rw [storeCells_of_lt (by omega)]
      have hgood := hall i (by omega)
      rwa [Nat.zero_add] at hgood
    · intro i v _ hi hinv
      have hlt : i < call.count := by omega
      have hst := hbeg i hlt
      have hstp := hend i hlt
      have hgood : IsEndOf g.orderMask.rowIsValid g.inputSize (call.rowIdx + i)
          (g.peerEndCell p.2 i v).2 := by
        rw [peerEndCell]
        by_cases hnew : v ≤ p.2 .peerBegin i
        · rw [if_pos hnew, ValidityMask.findNextStart_eq le_rfl]
          exact (IsEndOf.of_start hst hstp.lt).refine hstp (hg.order_of_partition _)
        · rw [if_neg hnew]
          rcases hinv with ⟨rfl, rfl⟩ | ⟨hpos, hv⟩
          · exact absurd le_rfl hnew
          · obtain ⟨j, rfl⟩ : ∃ j, i = j + 1 := ⟨i - 1, by omega⟩
            have hprev : call.rowIdx + (j + 1 - 1) = call.rowIdx + j := rfl
            refine hv.succ ?_ (lt_of_lt_of_le hstp.lt hstp.le)
            -- the peers of the row start before it
            refine hst.inner _ ?_ le_rfl
            by_contra hge
            have hst' : p.2 .peerBegin (j + 1) = call.rowIdx + (j + 1) := le_antisymm hst.le (not_lt.1 hge)
            have hmark := hst.marked
            rcases Nat.lt_or_ge (call.rowIdx + (j + 1)) v with hlt' | hge'
            · rw [hst', hv.inner _ (by omega) hlt'] at hmark
              exact Bool.false_ne_true hmark
            · exact hnew (by omega)
      exact ⟨.inr ⟨Nat.succ_pos i, hgood⟩, hgood⟩

/-! ## The columns of a call -/

theorem exists_whenRequired (bound : BoundsColumn) (field : WindowBoundariesState → ℕ)
    (setField : ℕ → WindowBoundariesState → WindowBoundariesState) (post : ℕ → (ℕ → ℕ) → Prop)
    {f : WindowBoundariesState × BoundsColumns → WindowBoundariesState × BoundsColumns} (hset : ∀ t, setField (field t) t = t)
    (h : bound ∈ g.required → ∃ v column, f p = (setField v p.1, update p.2 bound column) ∧ post v column) :
    ∃ v column, g.whenRequired bound f p = (setField v p.1, update p.2 bound column) ∧
      (bound ∈ g.required → post v column) := by
  by_cases hreq : bound ∈ g.required
  · obtain ⟨v, column, hf, hpost⟩ := h hreq
    exact ⟨v, column, (whenRequired_of_mem hreq f p).trans hf, fun _ => hpost⟩
  · refine ⟨field p.1, p.2 bound, ?_, fun h' => absurd h' hreq⟩
    rw [whenRequired_of_not_mem hreq, hset, update_eq_self]

/-- From the bounds of the row before, the state comes to those of the last row, and the columns have those of all
    rows. -/
theorem rowBounds_spec (hg : g.IsGroup) (hcall : g.InGroup call)
    (hs : ∀ r, s.nextPos = r + 1 → g.Carried s r) (b : BoundsColumns) :
    (g.rowBounds call s b).1.nextPos = call.rowIdx ∧
      g.Carried (g.rowBounds call s b).1 (call.rowIdx + call.count - 1) ∧
      g.RowColumns call (g.rowBounds call s b).2 := by
  obtain ⟨jump, hjump⟩ : ∃ jump : Bool, jump = decide (s.nextPos ≠ call.rowIdx) := ⟨_, rfl⟩
  have hcarr : jump = true ∨ ∀ r, call.rowIdx = r + 1 → g.Carried s r := by
    by_cases h : s.nextPos = call.rowIdx
    · exact .inr fun r hr => hs r (h.trans hr)
    · exact .inl (hjump ▸ decide_eq_true h)
  rw [rowBounds]
  simp only [← hjump]
  obtain ⟨v₁, c₁, h₁, hv₁⟩ := exists_whenRequired (g := g) .partitionBegin WindowBoundariesState.partitionStart
    (fun v t => { t with partitionStart := v }) _ (fun _ => rfl) fun hreq => partitionBegin_spec
      (p := ({ s with nextPos := call.rowIdx }, b)) hg hcall
      (hcarr.imp_right fun h r hr => (h r hr).partitionStart hreq)
  rw [h₁]
  obtain ⟨v₂, c₂, h₂, hv₂⟩ := exists_whenRequired (g := g) .partitionEnd WindowBoundariesState.partitionEnd
    (fun v t => { t with partitionEnd := v }) _ (fun _ => rfl) fun hreq => partitionEnd_spec
      (p := ({ s with nextPos := call.rowIdx, partitionStart := v₁ }, update b .partitionBegin c₁)) hg hcall
      (fun hover => (hv₁ (required_partitionBegin hreq hover)).2)
      (hcarr.imp_right fun h r hr => (h r hr).partitionEnd hreq)
  rw [h₂]
  obtain ⟨v₃, c₃, h₃, hv₃⟩ := exists_whenRequired (g := g) .peerBegin WindowBoundariesState.peerStart
    (fun v t => { t with peerStart := v }) _ (fun _ => rfl) fun hreq => peerBegin_spec
      (p := ({ s with nextPos := call.rowIdx, partitionStart := v₁, partitionEnd := v₂ },
        update (update b .partitionBegin c₁) .partitionEnd c₂)) hg hcall
      (hcarr.imp_right fun h r hr => (h r hr).peerStart hreq)
  rw [h₃]
  obtain ⟨-, c₄, h₄, hc₄⟩ := exists_whenRequired (g := g) .peerEnd WindowBoundariesState.nextPos
    (fun _ t => t) (fun _ column => ∀ i < call.count,
      IsEndOf g.orderMask.rowIsValid g.inputSize (call.rowIdx + i) (column i))
    (f := g.peerEnd call) (fun _ => rfl) fun hreq => ⟨0, peerEnd_spec
      (p := ({ s with nextPos := call.rowIdx, partitionStart := v₁, partitionEnd := v₂, peerStart := v₃ },
        update (update (update b .partitionBegin c₁) .partitionEnd c₂)
          .peerBegin c₃)) hg (hv₂ (required_partitionEnd hreq)).2
      fun hord => (hv₃ (required_peerBegin hreq hord)).2⟩
  rw [h₄]
  obtain ⟨v₅, c₅, h₅, -⟩ := exists_whenRequired (g := g) .validBegin WindowBoundariesState.validStart
    (fun v t => { t with validStart := v }) (fun _ _ => True) (f := g.validBegin call jump) (fun _ => rfl)
    fun _ => ⟨_, _, rfl, trivial⟩
  rw [h₅]
  obtain ⟨v₆, c₆, h₆, -⟩ := exists_whenRequired (g := g) .validEnd WindowBoundariesState.validEnd
    (fun v t => { t with validEnd := v }) (fun _ _ => True) (f := g.validEnd call jump) (fun _ => rfl)
    fun _ => ⟨_, _, rfl, trivial⟩
  rw [h₆]
  exact ⟨rfl, ⟨fun hreq => (hv₁ hreq).1, fun hreq => (hv₂ hreq).1, fun hreq => (hv₃ hreq).1⟩,
    ⟨fun hreq => (hv₁ hreq).2, fun hreq => (hv₂ hreq).2, fun hreq => (hv₃ hreq).2, hc₄⟩⟩

/-! ## Frames leave the other columns as they are -/

section Frames

variable [LinearOrder V] {b' : BoundsColumns}

/-- A column is as it was, or it was clamped. -/
def SameOrClamped (b b' : BoundsColumns) (c : BoundsColumn) : Prop :=
  ∀ i, b' c i = b c i ∨ b' c i = min (max (b c i) (b .partitionBegin i)) (b .partitionEnd i)

theorem clampFrame_sameOrClamped (b : BoundsColumns) (count : ℕ) (c : BoundsColumn) :
    SameOrClamped b (b.clampFrame count c) c := by
  intro i
  rcases Nat.lt_or_ge i count with h | h
  · exact .inr (BoundsColumns.clampFrame_of_lt h)
  · refine .inl ?_
    rw [BoundsColumns.clampFrame, BoundsColumns.fill, BoundsColumns.store_self, storeCells_of_le]
    rwa [List.length_map, List.length_range]

omit [LinearOrder V] in
/-- Cells that are stored and clamped do not touch another column. -/
theorem storeFrame_of_ne {σ : Type} {bound c : BoundsColumn} {cells : Except BoundsError (σ × List ℕ)}
    (h : storeFrame call b bound cells = .ok b') (hc : c ≠ bound) : b' c = b c := by
  rw [storeFrame] at h
  cases cells with
  | error e => cases h
  | ok r =>
    obtain rfl := Except.ok.inj h
    rw [BoundsColumns.clampFrame_of_ne hc, BoundsColumns.store_of_ne hc]

theorem clampFrame_fill_of_ne {bound c : BoundsColumn} {f : ℕ → ℕ} {count : ℕ}
    (h : (.ok ((b.fill count bound f).clampFrame count bound) : Except BoundsError _) = .ok b')
    (hc : c ≠ bound) : b' c = b c := by
  obtain rfl := Except.ok.inj h
  rw [BoundsColumns.clampFrame_of_ne hc, BoundsColumns.fill_of_ne hc]

omit [LinearOrder V] in
/-- What keeps all columns but one neither clamps nor changes any other. -/
theorem sameOrClamped_of_ne {bound peer : BoundsColumn} (hne : peer ≠ bound) (h : ∀ c, c ≠ bound → b' c = b c) :
    SameOrClamped b b' peer ∧ ∀ c, c ≠ bound → c ≠ peer → b' c = b c :=
  ⟨fun i => .inl (by rw [h _ hne]), fun c hc _ => h c hc⟩

/-- The start of the frames is a column of its own, or that of the peers. -/
theorem frameBegin_of_ne (h : g.frameBegin call b = .ok b') : SameOrClamped b b' .peerBegin ∧
      ∀ c, c ≠ .frameBegin → c ≠ .peerBegin → b' c = b c := by
  rw [frameBegin] at h
  cases hst : g.wexpr.start <;> simp only [hst] at h
  case currentRowRange | currentRowGroups =>
    obtain rfl := Except.ok.inj h
    refine ⟨?_, fun c hc hpeer => ?_⟩
    · intro i
      exact clampFrame_sameOrClamped b call.count .peerBegin i
    · rw [BoundsColumns.reference_of_ne hc, BoundsColumns.clampFrame_of_ne hpeer]
  case unboundedPreceding =>
    obtain rfl := Except.ok.inj h
    exact sameOrClamped_of_ne (by decide) fun c hc => BoundsColumns.reference_of_ne hc
  case currentRowRows | exprPrecedingRows | exprFollowingRows =>
    exact sameOrClamped_of_ne (by decide) fun c hc => clampFrame_fill_of_ne h hc
  case exprPrecedingRange | exprFollowingRange | exprPrecedingGroups | exprFollowingGroups =>
    exact sameOrClamped_of_ne (by decide) fun c hc => storeFrame_of_ne h hc
  case unboundedFollowing | invalid => cases h

/-- The end of the frames is a column of its own, or that of the peers. -/
theorem frameEnd_of_ne (h : g.frameEnd call s b = .ok b') :
    SameOrClamped b b' .peerEnd ∧ ∀ c, c ≠ .frameEnd → c ≠ .peerEnd → b' c = b c := by
  rw [frameEnd] at h
  cases hstp : g.wexpr.stop <;> simp only [hstp] at h
  case currentRowRange | currentRowGroups =>
    obtain rfl := Except.ok.inj h
    refine ⟨?_, fun c hc hpeer => ?_⟩
    · intro i
      exact clampFrame_sameOrClamped b call.count .peerEnd i
    · rw [BoundsColumns.reference_of_ne hc, BoundsColumns.clampFrame_of_ne hpeer]
  case unboundedFollowing =>
    obtain rfl := Except.ok.inj h
    exact sameOrClamped_of_ne (by decide) fun c hc => BoundsColumns.reference_of_ne hc
  case currentRowRows | exprPrecedingRows | exprFollowingRows =>
    exact sameOrClamped_of_ne (by decide) fun c hc => clampFrame_fill_of_ne h hc
  case exprPrecedingRange | exprFollowingRange | exprPrecedingGroups | exprFollowingGroups =>
    exact sameOrClamped_of_ne (by decide) fun c hc => storeFrame_of_ne h hc
  case unboundedPreceding | invalid => cases h

omit [LinearOrder V] in
theorem partitionBegin_le_peers (hg : g.IsGroup) {r u v : ℕ} (hr : r < g.inputSize)
    (hu : IsStartOf g.partitionMask.rowIsValid r u) (hv : IsStartOf g.orderMask.rowIsValid r v) :
    u ≤ v := by
  by_contra hlt
  have hfls := hv.inner u (not_le.1 hlt) hu.le
  exact Bool.false_ne_true (hfls.symm.trans (hg.order_of_partition u (hu.le.trans_lt hr) hu.marked))

omit [LinearOrder V] in
theorem peers_le_partitionEnd (hg : g.IsGroup) {r u v : ℕ} (hu : IsEndOf g.partitionMask.rowIsValid g.inputSize r u)
    (hv : IsEndOf g.orderMask.rowIsValid g.inputSize r v) : v ≤ u := by
  by_contra hlt
  have hfls := hv.inner u hu.lt (not_le.1 hlt)
  have hsz : u < g.inputSize := (not_le.1 hlt).trans_le hv.le
  have hmark := hu.stop.resolve_left hsz.ne
  exact Bool.false_ne_true (hfls.symm.trans (hg.order_of_partition u hsz hmark))

/-- The bounds of peers do not change when they are clamped to their partition. -/
theorem RowColumns.frameBegin (hg : g.IsGroup) (h : g.RowColumns call b)
    (hreq : .frameBegin ∈ g.required) (hb : g.frameBegin call b = .ok b') : g.RowColumns call b' := by
  obtain ⟨hbeg, hend⟩ := required_partition (.inl hreq)
  obtain ⟨hpeer, hne⟩ := frameBegin_of_ne hb
  refine ⟨fun hc => ?_, fun hc => ?_, fun hc i hi => ?_, fun hc => ?_⟩
  · rw [hne _ (by decide) (by decide)]
    exact h.partitionBegin hc
  · rw [hne _ (by decide) (by decide)]
    exact h.partitionEnd hc
  · have hst := h.peerBegin hc i hi
    have hrow : call.rowIdx + i < g.inputSize :=
      lt_of_lt_of_le (h.partitionEnd hend i hi).lt (h.partitionEnd hend i hi).le
    rcases hpeer i with hsm | hclamped
    · rwa [hsm]
    · rwa [hclamped, max_eq_left (partitionBegin_le_peers hg hrow (h.partitionBegin hbeg i hi) hst),
        min_eq_left (hst.le.trans (h.partitionEnd hend i hi).lt.le)]
  · rw [hne _ (by decide) (by decide)]
    exact h.peerEnd hc

theorem RowColumns.frameEnd (hg : g.IsGroup) (h : g.RowColumns call b)
    (hreq : .frameEnd ∈ g.required) (hb : g.frameEnd call s b = .ok b') : g.RowColumns call b' := by
  obtain ⟨hbeg, hend⟩ := required_partition (.inr hreq)
  obtain ⟨hpeer, hne⟩ := frameEnd_of_ne hb
  refine ⟨fun hc => ?_, fun hc => ?_, fun hc => ?_, fun hc i hi => ?_⟩
  · rw [hne _ (by decide) (by decide)]
    exact h.partitionBegin hc
  · rw [hne _ (by decide) (by decide)]
    exact h.partitionEnd hc
  · rw [hne _ (by decide) (by decide)]
    exact h.peerBegin hc
  · have hstp := h.peerEnd hc i hi
    have hle : b .partitionBegin i ≤ b .peerEnd i := (h.partitionBegin hbeg i hi).le.trans hstp.lt.le
    rcases hpeer i with hsm | hclamped
    · rwa [hsm]
    · rwa [hclamped, max_eq_left hle, min_eq_left (peers_le_partitionEnd hg (h.partitionEnd hend i hi) hstp)]

/-! ## Runs of calls -/

/-- What a call returns, from the columns before the frames. -/
theorem bounds_cases {s' : WindowBoundariesState} (h : g.bounds call s b = .ok (s', b')) :
    ∃ b₁, (if .frameBegin ∈ g.required then g.frameBegin call (g.rowBounds call s b).2 = .ok b₁
        else b₁ = (g.rowBounds call s b).2) ∧
      (if .frameEnd ∈ g.required then g.frameEnd call (g.rowBounds call s b).1 b₁ = .ok b' else b' = b₁) ∧
      s' = { (g.rowBounds call s b).1 with nextPos := (g.rowBounds call s b).1.nextPos + call.count } := by
  rw [bounds] at h
  simp only [whenRequired, bind, Except.bind] at h
  by_cases hbeg : .frameBegin ∈ g.required
  · rw [if_pos hbeg] at h
    cases hb₁ : g.frameBegin call (g.rowBounds call s b).2 with
    | error e =>
      rw [hb₁] at h
      by_cases hend : .frameEnd ∈ g.required
      · rw [if_pos hend] at h
        cases h
      · rw [if_neg hend] at h
        cases h
    | ok b₁ =>
      rw [hb₁] at h
      refine ⟨b₁, by rw [if_pos hbeg], ?_⟩
      by_cases hend : .frameEnd ∈ g.required
      · rw [if_pos hend] at h ⊢
        dsimp only at h
        cases hb₂ : g.frameEnd call (g.rowBounds call s b).1 b₁ with
        | error e =>
          rw [hb₂] at h
          cases h
        | ok b₂ =>
          rw [hb₂] at h
          obtain ⟨rfl, rfl⟩ := Prod.ext_iff.1 (Except.ok.inj h)
          exact ⟨rfl, rfl⟩
      · rw [if_neg hend] at h ⊢
        obtain ⟨rfl, rfl⟩ := Prod.ext_iff.1 (Except.ok.inj h)
        exact ⟨rfl, rfl⟩
  · rw [if_neg hbeg] at h
    refine ⟨(g.rowBounds call s b).2, by rw [if_neg hbeg], ?_⟩
    by_cases hend : .frameEnd ∈ g.required
    · rw [if_pos hend] at h ⊢
      dsimp only at h
      cases hb₂ : g.frameEnd call (g.rowBounds call s b).1 (g.rowBounds call s b).2 with
      | error e =>
        rw [hb₂] at h
        cases h
      | ok b₂ =>
        rw [hb₂] at h
        obtain ⟨rfl, rfl⟩ := Prod.ext_iff.1 (Except.ok.inj h)
        exact ⟨rfl, rfl⟩
    · rw [if_neg hend] at h ⊢
      obtain ⟨rfl, rfl⟩ := Prod.ext_iff.1 (Except.ok.inj h)
      exact ⟨rfl, rfl⟩

/-- After any run of calls, the state carries the bounds of the row before its position. -/
theorem carried_of_reaches (hg : g.IsGroup) (hs : g.Reaches s) : ∀ r, s.nextPos = r + 1 → g.Carried s r := by
  refine @Reachable.invariant _ _ _ (fun s => ∀ r, s.nextPos = r + 1 → g.Carried s r) ?_ ?_ _ hs
  · rintro s rfl r hr
    cases hr
  · rintro s s' - hinv ⟨call, b, b', hcall, hrun⟩ r hr
    obtain ⟨hpos, hcarr, -⟩ := rowBounds_spec hg hcall hinv b
    obtain ⟨-, -, -, rfl⟩ := bounds_cases hrun
    have hrow : r = call.rowIdx + call.count - 1 := by
      dsimp only at hr
      omega
    rw [hrow]
    exact ⟨hcarr.partitionStart, hcarr.partitionEnd, hcarr.peerStart⟩

/-- After any run of calls, the columns have the bounds of the rows, before and after the frames are computed. -/
theorem rowColumns_of_reaches (hg : g.IsGroup) (hs : g.Reaches s) (hcall : g.InGroup call) (b : BoundsColumns) :
    g.RowColumns call (g.rowBounds call s b).2 ∧
      ∀ s' b', g.bounds call s b = .ok (s', b') → g.RowColumns call b' := by
  obtain ⟨-, -, hrs⟩ := rowBounds_spec hg hcall (carried_of_reaches hg hs) b
  refine ⟨hrs, fun s' b' hrun => ?_⟩
  obtain ⟨b₁, hbeg, hend, -⟩ := bounds_cases hrun
  have hrs₁ : g.RowColumns call b₁ := by
    by_cases hreq : .frameBegin ∈ g.required
    · rw [if_pos hreq] at hbeg
      exact hrs.frameBegin hg hreq hbeg
    · rw [if_neg hreq] at hbeg
      rwa [hbeg]
  by_cases hreq : .frameEnd ∈ g.required
  · rw [if_pos hreq] at hend
    exact hrs₁.frameEnd hg hreq hend
  · rw [if_neg hreq] at hend
    rwa [hend]

/-- Two pairs of peers in partitions of their own. -/
def twoPairs : WindowBoundaries ℕ where
  wexpr := ⟨.cumeDist, 1, [.ascending], 0, .unboundedPreceding, .currentRowRange, .noOther⟩
  inputSize := 4
  partitionMask := ⟨some fun _ => 5#64⟩
  orderMask := ⟨some fun _ => 5#64⟩
  range := ⟨fun _ => false, (· / 2)⟩

theorem twoPairs_isGroup : twoPairs.IsGroup :=
  ⟨by decide, fun _ _ h => h, fun h => absurd h (by decide), fun h => absurd h (by decide)⟩

/-- The first call, for the last two rows. -/
def lastPair : BoundsCall ℕ := ⟨2, 2, ⟨fun _ => true, fun _ => 0, id⟩, ⟨fun _ => true, fun _ => 0, id⟩⟩

theorem rowColumns_two_pairs : twoPairs.RowColumns lastPair (twoPairs.rowBounds lastPair .new fun _ _ => 7).2 ∧
      ∀ s' b', twoPairs.bounds lastPair .new (fun _ _ => 7) = .ok (s', b') → twoPairs.RowColumns lastPair b' :=
  rowColumns_of_reaches twoPairs_isGroup (.start rfl) ⟨by decide, by decide⟩ fun _ _ => 7

end Frames

end WindowBoundaries

end WfOpt

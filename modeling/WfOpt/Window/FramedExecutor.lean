import WfOpt.Window.FramedRank
import WfOpt.Window.Rank

/-!
# Co-evaluation of framed ranks

With an `ORDER BY` argument, `WindowRankExecutor` ranks each row of a chunk in its frame. With early out, it stops at
the first row of the chunk whose rank is beyond `k`, while without framing it goes on at the next partition. So it
selects all rows with a rank of at most `k` exactly if no such row comes after another one
(`OrderedRows.earlyOut_framing_iff`).
-/

namespace WfOpt

open List

/-! ## The executor -/

/-- What the evaluation of a chunk writes: the result vector and the selection vector. -/
structure FramedState where
  rdata : ℕ → ℤ
  sel : List ℕ

namespace FramedState

/-- The row `i` of the chunk is evaluated. -/
def write (s : FramedState) (i : ℕ) (rnk : ℤ) : FramedState := { s with rdata := Function.update s.rdata i rnk }

/-- The row `i` of the chunk is selected (`sel.set_index(match_count++, i)`). -/
def select (s : FramedState) (i : ℕ) : FramedState := { s with sel := s.sel ++ [i] }

end FramedState

/-- The loops of `WindowRankExecutor::EvaluateInternal` with framing, over `n` rows from `i` on, which differ in
    `rnk`. -/
def framingLoop (e : RankExecutor) (predicateValue : ℤ) (rnk : ℕ → ℤ) : ℕ → ℕ → FramedState → FramedState
  | _, 0, s => s
  | i, n + 1, s =>
    let s := s.write i (rnk i)
    match e with
    | .plain => framingLoop e predicateValue rnk (i + 1) n s
    | .filter =>
      if rnk i ≤ predicateValue then framingLoop e predicateValue rnk (i + 1) n (s.select i)
      else framingLoop e predicateValue rnk (i + 1) n s
    | .earlyOut =>
      if rnk i ≤ predicateValue then framingLoop e predicateValue rnk (i + 1) n (s.select i) else s

namespace OrderedRows

variable {X V : Type*} [LinearOrder V] (P : OrderedRows X V)

/-- `rnk`, with a token tree or without one. -/
def rnk (tokenTree : Option (MergeSortTree ℕ)) (frameBegin frameEnd rowIdx : ℕ) : ℤ := match tokenTree with
  | some tree => toInt64 (TokenTree.rank tree frameBegin frameEnd rowIdx)
  | none => framedRank frameBegin (P.group.peerBegin rowIdx)

/-- `WindowRankExecutor::EvaluateInternal` with framing, over the chunk `c` of the group. -/
def evaluateFraming (e : RankExecutor) (predicateValue : ℤ) (tokenTree : Option (MergeSortTree ℕ))
    (frameBegin frameEnd : ℕ → ℕ) (c : ℕ) : FramedState :=
  let rowIdx := P.position c
  framingLoop e predicateValue
    (fun i => P.rnk tokenTree (frameBegin (rowIdx + i)) (frameEnd (rowIdx + i)) (rowIdx + i)) 0 (P.chunkSize c)
    ⟨fun _ => 0, []⟩

/-- The rows ranked before a row: with a token tree those of the frame with a smaller argument, else those up to the
    first peer. -/
def rankedBefore (withTree : Bool) (frameBegin frameEnd rowIdx : ℕ) : ℕ := if withTree then
    TokenTree.frameCount (fun i => P.keys P.argOrders i < P.keys P.argOrders rowIdx) frameBegin frameEnd
  else max frameBegin (P.group.peerBegin rowIdx) - frameBegin

end OrderedRows

/-! ## The loop -/

section Loop

variable {k : ℤ} {rnk : ℕ → ℤ}

/-- Without early out, the rows that match are selected. -/
theorem framingLoop_filter_sel (i n : ℕ) (s : FramedState) :
    (framingLoop .filter k rnk i n s).sel = s.sel ++ (range' i n).filter fun j => rnk j ≤ k := by
  induction n generalizing i s with
  | zero => exact (append_nil _).symm
  | succ n ih =>
    rw [framingLoop, range'_succ]
    by_cases hk : rnk i ≤ k
    · rw [if_pos hk, ih, filter_cons_of_pos (by exact decide_eq_true hk)]
      exact append_assoc s.sel [i] _
    · rw [if_neg hk, ih, filter_cons_of_neg (by rwa [decide_eq_true_iff])]
      rfl

/-- With early out, those before the first one that does not match. -/
theorem framingLoop_earlyOut_sel (i n : ℕ) (s : FramedState) :
    (framingLoop .earlyOut k rnk i n s).sel = s.sel ++ (range' i n).takeWhile fun j => rnk j ≤ k := by
  induction n generalizing i s with
  | zero => exact (append_nil _).symm
  | succ n ih =>
    rw [framingLoop, range'_succ]
    by_cases hk : rnk i ≤ k
    · rw [if_pos hk, ih, takeWhile_cons_of_pos (by exact decide_eq_true hk)]
      exact append_assoc s.sel [i] _
    · rw [if_neg hk, takeWhile_cons_of_neg (by rwa [decide_eq_true_iff])]
      exact (append_nil _).symm

/-- Of a range, the numbers that satisfy `p` are found before the first one that does not, if none comes after it. -/
theorem takeWhile_range'_eq_filter_iff {p : ℕ → Prop} [DecidablePred p] (i n : ℕ) :
    (range' i n).takeWhile (p ·) = (range' i n).filter (p ·) ↔
      ∀ b, i ≤ b → b < i + n → p b → ∀ a, i ≤ a → a < b → p a := by
  induction n generalizing i with
  | zero => exact iff_of_true rfl fun b h₁ h₂ => absurd h₁ (not_le.2 h₂)
  | succ n ih =>
    rw [range'_succ]
    by_cases hp : p i
    · rw [takeWhile_cons_of_pos (by exact decide_eq_true hp),
        filter_cons_of_pos (by exact decide_eq_true hp), cons_inj_right, ih]
      constructor
      · intro h b h₁ h₂ hb a ha hab
        rcases ha.eq_or_lt with rfl | ha
        · exact hp
        · exact h b (ha.trans hab) (by omega) hb a ha hab
      · exact fun h b h₁ h₂ hb a ha hab => h b (by omega) (by omega) hb a (by omega) hab
    · rw [takeWhile_cons_of_neg (by rwa [decide_eq_true_iff]),
        filter_cons_of_neg (by rwa [decide_eq_true_iff]), eq_comm, filter_eq_nil_iff]
      constructor
      · intro h b h₁ h₂ hb
        rcases h₁.eq_or_lt with rfl | hlt
        · exact absurd hb hp
        · exact absurd (decide_eq_true hb) (h b (mem_range'_1.2 (by omega)))
      · intro h b hb hpb
        rw [mem_range'_1] at hb
        exact hp (h b (by omega) (by omega) (of_decide_eq_true hpb) i le_rfl (by omega))

end Loop

/-! ## Early out -/

namespace OrderedRows

variable {X V : Type*} [LinearOrder V] {P : OrderedRows X V}

theorem rnk_eq {tokenTree : Option (MergeSortTree ℕ)} (htree : ∀ tree ∈ tokenTree, ∃ rows writes,
      (P.tokenTree false).Wrote rows writes ∧ tree = (P.tokenTree false).build rows writes)
    {frameBegin frameEnd row : ℕ} (hbeg : frameBegin ≤ P.count) (hend : frameEnd ≤ P.count) (hrow : row < P.count) :
    P.rnk tokenTree frameBegin frameEnd row =
      toInt64 (P.rankedBefore tokenTree.isSome frameBegin frameEnd row + 1) := by
  have hcnt := P.count_lt
  cases tokenTree with
  | some tree =>
    obtain ⟨rows, writes, hwrote, rfl⟩ := htree tree rfl
    rw [rnk, rankedBefore, if_pos (by rfl), hwrote.rank_eq hrow hend, Nat.add_comm]
    refine congrArg (fun n => toInt64 (n + 1)) (TokenTree.frameCount_congr fun i _ _ => ?_)
    exact sortKey_lt_iff
  | none =>
    have hpeer : P.group.peerBegin row ≤ row := lastStart_le _ _
    rw [rnk, rankedBefore, if_neg (by exact Bool.false_ne_true), framedRank,
      idxSub_of_le (le_max_left _ _) (max_lt (by omega) (by omega)), idxAdd_of_lt (by omega)]

/-- Early out selects the rows of rank at most `k` if and only if none of them comes after a row beyond `k`. -/
theorem earlyOut_framing_iff (P : OrderedRows X V) (k : ℤ) {tokenTree : Option (MergeSortTree ℕ)}
    (htree : ∀ tree ∈ tokenTree, ∃ rows writes,
      (P.tokenTree false).Wrote rows writes ∧ tree = (P.tokenTree false).build rows writes)
    {frameBegin frameEnd : ℕ → ℕ} (hframes : ∀ i, frameBegin i ≤ P.count ∧ frameEnd i ≤ P.count) {c : ℕ}
    (hc : c < P.chunks.length) :
    let before := fun i => P.rankedBefore tokenTree.isSome (frameBegin i) (frameEnd i) i
    (P.evaluateFraming .filter k tokenTree frameBegin frameEnd c).sel =
        (range (P.chunkSize c)).filter (fun i => toInt64 (before (P.position c + i) + 1) ≤ k) ∧
      ((P.evaluateFraming .earlyOut k tokenTree frameBegin frameEnd c).sel =
          (P.evaluateFraming .filter k tokenTree frameBegin frameEnd c).sel ↔
        ∀ b < P.chunkSize c, toInt64 (before (P.position c + b) + 1) ≤ k →
          ∀ a < b, toInt64 (before (P.position c + a) + 1) ≤ k) := by
  intro before
  have hle := P.position_add_chunkSize_le hc
  have hrnk : ∀ i < P.chunkSize c, P.rnk tokenTree (frameBegin (P.position c + i)) (frameEnd (P.position c + i))
      (P.position c + i) = toInt64 (before (P.position c + i) + 1) := fun i hi =>
    rnk_eq htree (hframes _).1 (hframes _).2 (by omega)
  rw [evaluateFraming, evaluateFraming, framingLoop_filter_sel, framingLoop_earlyOut_sel, nil_append, nil_append,
    takeWhile_range'_eq_filter_iff, ← range_eq_range']
  refine ⟨filter_congr fun i hi => ?_, ?_⟩
  · rw [hrnk i (mem_range.1 hi)]
  · constructor
    · intro h b hb hk a hab
      rw [← hrnk a (hab.trans hb)]
      exact h b (Nat.zero_le b) (by omega) (hrnk b hb ▸ hk) a (Nat.zero_le a) hab
    · intro h b _ hb hk a _ hab
      have hb' : b < P.chunkSize c := by omega
      rw [hrnk a (hab.trans hb')]
      exact h b hb' (hrnk b hb' ▸ hk) a hab

theorem twoPartitions_pos : ∀ n ∈ [3], 1 ≤ n := by decide

/-- Two partitions, the first one with two rows. There is no token tree. -/
def twoPartitions : OrderedRows ℕ ℕ where
  chunks := [3]
  chunks_pos := twoPartitions_pos
  partitions := [⟨.ascending, .nullsLast, 0⟩]
  orders := [⟨.ascending, .nullsLast, 1⟩]
  argOrders := [⟨.ascending, .nullsLast, 1⟩]
  sortValue node row := if node.expression = 0 then row / 2 else row % 2
  chunks_le := by decide
  count_lt := by decide
  sorted i j hij hj := by
    have hj : j < 3 := hj
    interval_cases j <;> interval_cases i <;> decide

/-- Each row is ranked in the rows of its partition up to itself, and stopping at the second row loses the third. -/
theorem earlyOut_framing_loses :
    getSharedOrders twoPartitions.orders twoPartitions.argOrders = twoPartitions.argOrders.length ∧
      (twoPartitions.evaluateFraming .filter 1 none twoPartitions.group.partitionBegin (· + 1) 0).sel = [0, 2] ∧
      (twoPartitions.evaluateFraming .earlyOut 1 none twoPartitions.group.partitionBegin (· + 1) 0).sel = [0] := by
  decide

/-- With ranks up to two, nothing is lost. -/
theorem earlyOut_framing_two : (twoPartitions.evaluateFraming .earlyOut 2 none (fun _ => 0) (fun _ => 3) 0).sel =
      (twoPartitions.evaluateFraming .filter 2 none (fun _ => 0) (fun _ => 3) 0).sel := by
  refine (earlyOut_framing_iff twoPartitions 2 ?_ ?_ ?_).2.2 ?_
  · intro tree h
    cases h
  · exact fun _ => ⟨by decide, by decide⟩
  · decide
  · decide

end OrderedRows

end WfOpt

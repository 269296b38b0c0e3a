import WfOpt.Window.Group

/-!
# Co-evaluation of `rank()`

`WindowRankExecutor` evaluates `rank()` over a chunk and, when told so, the predicate `rank() <= k` along with it.
With *early out*, it leaves a partition at its first row beyond `k`, for the next start of the cache
`partition_begins`. The cache is read through an iterator that only moves when a jump is taken, so that after a
partition without rows beyond `k` the next jump goes *backward*. Early out loses and repeats nothing exactly if no
partition with a row beyond `k` is preceded by one without (`earlyOut_lossless_iff`).
-/

namespace WfOpt

open List

/-! ## The executor -/

/-- The rank counters of `WindowPeerLocalState`. -/
structure PeerState where
  denseRank : ℕ := 1
  rankEqual : ℕ := 0
  rank : ℕ := 1

/-- `WindowPeerLocalState::NextRank`. -/
def PeerState.nextRank (s : PeerState) (partitionBegin peerBegin rowIdx : ℕ) : PeerState := let s :=
    if partitionBegin = rowIdx then
      { denseRank := 1, rank := 1, rankEqual := 0 }
    else if peerBegin = rowIdx then
      { denseRank := s.denseRank + 1, rank := s.rank + s.rankEqual, rankEqual := 0 }
    else s
  { s with rankEqual := s.rankEqual + 1 }

/-- The instances of `WindowRankExecutor<Comparator, early_out>`. -/
inductive RankExecutor
  /-- `<std::false_type, false>`: no predicate. -/
  | plain
  /-- `<std::less_equal<int64_t>, false>`: co-evaluation. -/
  | filter
  /-- `<std::less_equal<int64_t>, true>`: co-evaluation with stop. -/
  | earlyOut
  deriving DecidableEq, Repr

/-- The choice of `WindowExecutorFactory` for `rank()`. -/
def windowExecutorFactory (useFilter earlyOut : Bool) : RankExecutor :=
  if earlyOut then .earlyOut else if useFilter then .filter else .plain

/-- What the evaluation of a chunk writes: the counters, the result and the selection vector (`match_count`). -/
structure RankState where
  peer : PeerState
  rdata : ℕ → ℕ
  sel : List ℕ

namespace RankState

/-- The number of selected rows. -/
def matchCount (s : RankState) : ℕ := s.sel.length

/-- The row `i` of the chunk is evaluated. -/
def write (s : RankState) (peer : PeerState) (i : ℕ) : RankState :=
  { s with peer := peer, rdata := Function.update s.rdata i peer.rank }

/-- The row `i` of the chunk is selected (`sel.set_index(match_count++, i)`). -/
def select (s : RankState) (i : ℕ) : RankState := { s with sel := s.sel ++ [i] }

end RankState

namespace HashGroup

variable (g : HashGroup) (k : ℕ) (e : RankExecutor)

/-- The loop of `WindowRankExecutor::EvaluateInternal` without framing, over `count` rows from `pos` on, with the
    starts left to read. -/
def evaluateLoop (pos count : ℕ) (i rowIdx : ℕ) (next : List ℕ) (s : RankState) : RankState := if i < count then
    let peer := s.peer.nextRank (g.partitionBegin (pos + i)) (g.peerBegin (pos + i)) rowIdx
    let s := s.write peer i
    match e with
    | .plain => evaluateLoop pos count (i + 1) (rowIdx + 1) next s
    | .filter =>
      if peer.rank ≤ k then evaluateLoop pos count (i + 1) (rowIdx + 1) next (s.select i)
      else evaluateLoop pos count (i + 1) (rowIdx + 1) next s
    | .earlyOut =>
      if peer.rank ≤ k then evaluateLoop pos count (i + 1) (rowIdx + 1) next (s.select i)
      else match next with
        | [] => s
        | partitionEnd :: next =>
          -- The distance wraps around when the iterator has fallen behind.
          let diff := idxSub (idxSub partitionEnd rowIdx) 1
          evaluateLoop pos count (idxAdd i diff + 1) (idxSub partitionEnd 1 + 1) next s
  else s
termination_by (next.length, count - i)

/-- `WindowRankExecutor::EvaluateInternal` without framing, over a chunk. -/
def evaluateInternal (count rowIdx : ℕ) (partitionBegins : List ℕ) : RankState :=
  let peer : PeerState :=
    { rank := (g.peerBegin rowIdx - g.partitionBegin rowIdx) + 1
      rankEqual := rowIdx - g.peerBegin rowIdx }
  let next := match e with
    | .earlyOut => partitionBegins.dropWhile (· ≤ rowIdx)
    | _ => []
  g.evaluateLoop k e rowIdx count 0 rowIdx next { peer := peer, rdata := fun _ => 0, sel := [] }

/-- `WindowLocalSourceState::GetData`, up to the selection: the evaluation of the chunk `c` with its cached starts. -/
def getData (c : ℕ) : RankState :=
  g.evaluateInternal k e (g.chunkSize c) (g.position c) (g.partitionBegins c)

/-! ## The counters -/

/-- The counters are right before the row `r` is evaluated: they are those of
    the previous row of its partition. -/
def Before (s : PeerState) (r : ℕ) : Prop := g.partitionMask r = true ∨
    (g.orderMask r = true ∧ s.rank + s.rankEqual = r - g.partitionBegin r + 1) ∨
    (g.orderMask r ≠ true ∧ s.rank = g.rank r ∧ s.rankEqual = r - g.peerBegin r)

/-- The counters are right after the row `r` is evaluated. -/
def After (s : PeerState) (r : ℕ) : Prop := s.rank = g.rank r ∧ s.rankEqual = r + 1 - g.peerBegin r

variable {g k e}

theorem partitionBegin_eq_iff {r : ℕ} : g.partitionBegin r = r ↔ g.partitionMask r = true := by
  refine ⟨fun h => ?_, lastStart_of_start⟩
  have := lastStart_spec g.partition_zero r
  rwa [show lastStart g.partitionMask r = r from h] at this

theorem peerBegin_eq_iff {r : ℕ} : g.peerBegin r = r ↔ g.orderMask r = true := by
  refine ⟨fun h => ?_, lastStart_of_start⟩
  have := lastStart_spec (g.order_of_partition 0 g.partition_zero) r
  rwa [show lastStart g.orderMask r = r from h] at this

theorem after_nextRank {s : PeerState} {r : ℕ} (h : g.Before s r) :
    g.After (s.nextRank (g.partitionBegin r) (g.peerBegin r) r) r := by
  unfold PeerState.nextRank After
  by_cases hp : g.partitionMask r = true
  · simp [partitionBegin_eq_iff.2 hp, rank_of_start hp, peerBegin_eq_iff.2 (g.order_of_partition r hp)]
  · rw [if_neg (mt partitionBegin_eq_iff.1 hp)]
    rcases h with h | ⟨ho, h⟩ | ⟨ho, h₁, h₂⟩
    · exact absurd h hp
    · have hpeer := peerBegin_eq_iff.2 ho
      rw [if_pos hpeer]
      exact ⟨by rw [rank, hpeer]; exact h, by simp [hpeer]⟩
    · rw [if_neg (mt peerBegin_eq_iff.1 ho)]
      have : g.peerBegin r ≤ r := lastStart_le _ _
      exact ⟨h₁, by simp only [h₂]; omega⟩

/-- The counters of a row are right for the next one. -/
theorem before_of_after {s : PeerState} {r : ℕ} (h : g.After s r) : g.Before s (r + 1) := by
  obtain ⟨h₁, h₂⟩ := h
  by_cases hp : g.partitionMask (r + 1) = true
  · exact .inl hp
  · have hpart : g.partitionBegin (r + 1) = g.partitionBegin r := lastStart_of_not_start hp
    have hle := g.partitionBegin_le_peerBegin r
    have hr : g.peerBegin r ≤ r := lastStart_le _ _
    by_cases ho : g.orderMask (r + 1) = true
    · refine .inr (.inl ⟨ho, ?_⟩)
      rw [h₁, h₂, hpart, rank]
      omega
    · have hpeer : g.peerBegin (r + 1) = g.peerBegin r := lastStart_of_not_start ho
      exact .inr (.inr ⟨ho, by rw [h₁, rank, rank, hpart, hpeer], by rw [h₂, hpeer]⟩)

/-- The counters a chunk starts with are right for its first row. -/
theorem before_init (r : ℕ) :
    g.Before { rank := (g.peerBegin r - g.partitionBegin r) + 1, rankEqual := r - g.peerBegin r }
      r := by
  by_cases ho : g.orderMask r = true
  · refine .inr (.inl ⟨ho, ?_⟩)
    rw [peerBegin_eq_iff.2 ho, Nat.sub_self, Nat.add_zero]
  · exact .inr (.inr ⟨ho, rfl, rfl⟩)

/-! ## The loop -/

section Loop

variable {pos count i : ℕ} {next : List ℕ} {s : RankState}

/-- The rows of the chunk from `i` on that satisfy the predicate. -/
def matching (g : HashGroup) (k pos count i : ℕ) : List ℕ :=
  (range' i (count - i)).filter fun j => g.rank (pos + j) ≤ k

theorem matching_of_le (h : count ≤ i) : g.matching k pos count i = [] := by
  simp [matching, Nat.sub_eq_zero_of_le h]

theorem range'_sub_eq_cons (h : i < count) : range' i (count - i) = i :: range' (i + 1) (count - (i + 1)) := by
  rw [show count - i = (count - (i + 1)) + 1 by omega, range'_succ]

theorem matching_of_match (h : i < count) (hk : g.rank (pos + i) ≤ k) :
    g.matching k pos count i = i :: g.matching k pos count (i + 1) := by
  simp [matching, range'_sub_eq_cons h, hk]

theorem matching_of_not_match (h : i < count) (hk : k < g.rank (pos + i)) :
    g.matching k pos count i = g.matching k pos count (i + 1) := by
  simp [matching, range'_sub_eq_cons h, Nat.not_le.2 hk]

theorem matching_skip {j : ℕ} (hij : i ≤ j) (hj : j ≤ count) (hno : ∀ m, i ≤ m → m < j → k < g.rank (pos + m)) :
    g.matching k pos count i = g.matching k pos count j := by
  induction j, hij using Nat.le_induction with
  | base => rfl
  | succ n hn ih =>
    rw [ih (by omega) fun m h₁ h₂ => hno m h₁ (by omega), matching_of_not_match (by omega) (hno n hn (by omega))]

/-- The counters after the row `i` of the chunk. -/
def peerAfter (g : HashGroup) (pos : ℕ) (s : RankState) (i : ℕ) : PeerState :=
  s.peer.nextRank (g.partitionBegin (pos + i)) (g.peerBegin (pos + i)) (pos + i)

theorem rank_peerAfter (h : g.Before s.peer (pos + i)) : (g.peerAfter pos s i).rank = g.rank (pos + i) :=
  (after_nextRank h).1

theorem before_peerAfter (h : g.Before s.peer (pos + i)) : g.Before (g.peerAfter pos s i) (pos + (i + 1)) :=
  before_of_after (after_nextRank h)

/-- The loop is over at the end of the chunk. -/
theorem evaluateLoop_of_le (h : count ≤ i) {r : ℕ} : g.evaluateLoop k e pos count i r next s = s := by
  rw [evaluateLoop, if_neg (by omega)]

/-- A row that matches is selected, whether with early out or not. -/
theorem evaluateLoop_of_match (he : e ≠ .plain) (h : i < count) (hb : g.Before s.peer (pos + i))
    (hk : g.rank (pos + i) ≤ k) :
    g.evaluateLoop k e pos count i (pos + i) next s = g.evaluateLoop k e pos count (i + 1) (pos + (i + 1)) next
        ((s.write (g.peerAfter pos s i) i).select i) := by
  have hrank : (s.peer.nextRank (g.partitionBegin (pos + i)) (g.peerBegin (pos + i))
      (pos + i)).rank ≤ k := (rank_peerAfter hb).trans_le hk
  rw [evaluateLoop, if_pos h]
  cases e with
  | plain => exact absurd rfl he
  | filter | earlyOut => simp only [if_pos hrank]; rfl

/-- Without early out, a row that does not match is passed over. -/
theorem evaluateLoop_filter_of_not_match (h : i < count) (hb : g.Before s.peer (pos + i))
    (hk : k < g.rank (pos + i)) :
    g.evaluateLoop k .filter pos count i (pos + i) next s =
      g.evaluateLoop k .filter pos count (i + 1) (pos + (i + 1)) next
        (s.write (g.peerAfter pos s i) i) := by
  have hrank : ¬(s.peer.nextRank (g.partitionBegin (pos + i)) (g.peerBegin (pos + i))
      (pos + i)).rank ≤ k := fun h => absurd hk (not_lt.2 ((rank_peerAfter hb).symm.trans_le h))
  rw [evaluateLoop, if_pos h]
  simp only [if_neg hrank]
  rfl

/-- With early out, a row that does not match ends the loop when the iterator
    is at its end. -/
theorem evaluateLoop_earlyOut_stop (h : i < count) (hb : g.Before s.peer (pos + i)) (hk : k < g.rank (pos + i)) :
    g.evaluateLoop k .earlyOut pos count i (pos + i) [] s = s.write (g.peerAfter pos s i) i := by
  have hrank : ¬(s.peer.nextRank (g.partitionBegin (pos + i)) (g.peerBegin (pos + i))
      (pos + i)).rank ≤ k := fun h => absurd hk (not_lt.2 ((rank_peerAfter hb).symm.trans_le h))
  rw [evaluateLoop, if_pos h]
  simp only [if_neg hrank]
  rfl

/-- With early out, a row that does not match makes the loop go to the start of the iterator, ahead or behind. -/
theorem evaluateLoop_earlyOut_jump {j : ℕ} (h : i < count) (hb : g.Before s.peer (pos + i))
    (hk : k < g.rank (pos + i)) (hpos : pos + count < idxRange) (hj₀ : 0 < j) (hj : j < count) :
    g.evaluateLoop k .earlyOut pos count i (pos + i) ((pos + j) :: next) s =
      g.evaluateLoop k .earlyOut pos count j (pos + j) next (s.write (g.peerAfter pos s i) i) := by
  have hrank : ¬(s.peer.nextRank (g.partitionBegin (pos + i)) (g.peerBegin (pos + i))
      (pos + i)).rank ≤ k := fun h => absurd hk (not_lt.2 ((rank_peerAfter hb).symm.trans_le h))
  have hsub : idxSub (pos + j) 1 + 1 = pos + j := by
    rw [idxSub_of_le (by omega) (by omega)]
    omega
  have hadd : idxAdd i (idxSub (idxSub (pos + j) (pos + i)) 1) + 1 = j := by
    have : idxSub (idxSub (pos + j) (pos + i)) 1 = idxSub (pos + j - 1) (pos + i) := by
      simp only [idxSub, idxRange] at *
      omega
    rw [this, idxAdd_idxSub (j := j - 1) (by omega) (by omega) (by omega)]
    omega
  rw [evaluateLoop, if_pos h]
  simp only [if_neg hrank, hadd, hsub]
  rfl

/-- The selection vector only grows. -/
theorem sel_grows (r : ℕ) : s.sel <+: (g.evaluateLoop k e pos count i r next s).sel := by
  fun_induction evaluateLoop g k e pos count i r next s with
  | case1 i r next s h peer s' he ih => exact he ▸ ih
  | case2 i r next s h peer s' he hk ih => exact (prefix_append _ _).trans (he ▸ ih)
  | case3 i r next s h peer s' he hk ih => exact he ▸ ih
  | case4 i r next s h peer s' he hk ih => exact (prefix_append _ _).trans (he ▸ ih)
  | case5 i r s h peer s' he hk => exact prefix_rfl
  | case6 i r s h peer s' he hk partitionEnd next diff ih => exact he ▸ ih
  | case7 i r next s h => exact prefix_rfl

/-- Without early out, the loop selects the rows that match. -/
theorem evaluateLoop_filter_sel (hb : g.Before s.peer (pos + i)) :
    (g.evaluateLoop k .filter pos count i (pos + i) next s).sel = s.sel ++ g.matching k pos count i := by
  induction hn : count - i generalizing i s with
  | zero => rw [evaluateLoop_of_le (by omega), matching_of_le (by omega), append_nil]
  | succ n ih =>
    have hlt : i < count := by omega
    rcases Nat.lt_or_ge k (g.rank (pos + i)) with hk | hk
    · rw [evaluateLoop_filter_of_not_match hlt hb hk, ih (before_peerAfter hb) (by omega),
        matching_of_not_match hlt hk]
      rfl
    · rw [evaluateLoop_of_match (by decide) hlt hb hk, ih (before_peerAfter hb) (by omega), matching_of_match hlt hk]
      simp [RankState.select, RankState.write]

/-- With early out, rows that all match are all selected, wherever the iterator is. -/
theorem evaluateLoop_earlyOut_all (hb : g.Before s.peer (pos + i))
    (hall : ∀ m, i ≤ m → m < count → g.rank (pos + m) ≤ k) :
    (g.evaluateLoop k .earlyOut pos count i (pos + i) next s).sel = s.sel ++ g.matching k pos count i := by
  induction hn : count - i generalizing i s with
  | zero => rw [evaluateLoop_of_le (by omega), matching_of_le (by omega), append_nil]
  | succ n ih =>
    have hlt : i < count := by omega
    have hk := hall i le_rfl hlt
    rw [evaluateLoop_of_match (by decide) hlt hb hk,
      ih (before_peerAfter hb) (fun m h₁ h₂ => hall m (by omega) h₂) (by omega),
      matching_of_match hlt hk]
    simp [RankState.select, RankState.write]

/-- A jump back to the start of a partition selects that start again. -/
theorem not_nodup_of_jump_back {j : ℕ} (hk : 1 ≤ k) (hpos : pos + count < idxRange)
    (hb : g.Before s.peer (pos + i)) (hj₀ : 0 < j) (hji : j ≤ i) (hic : i < count)
    (hst : g.partitionMask (pos + j) = true) (hsel : j < i → j ∈ s.sel)
    (hi : k < g.rank (pos + i)) :
    ¬(g.evaluateLoop k .earlyOut pos count i (pos + i) ((pos + j) :: next) s).sel.Nodup := by
  have hrank := rank_of_start hst
  have hlt : j < i := lt_of_le_of_ne hji fun h => by subst h; omega
  rw [evaluateLoop_earlyOut_jump hic hb hi hpos hj₀ (by omega),
    evaluateLoop_of_match (by decide) (by omega) (.inl hst) (by omega)]
  intro hnd
  have := hnd.sublist (sel_grows _).sublist
  exact (nodup_append.1 this).2.2 j (hsel hlt) j (mem_singleton_self j) rfl

/-- With an iterator that is behind, a row that does not match makes the loop select a start twice. -/
theorem not_nodup_of_behind {j : ℕ} (hk : 1 ≤ k) (hpos : pos + count < idxRange)
    (hb : g.Before s.peer (pos + i)) (hj₀ : 0 < j) (hji : j ≤ i)
    (hst : g.partitionMask (pos + j) = true) (hsel : j < i → j ∈ s.sel)
    (hex : ∃ m, i ≤ m ∧ m < count ∧ k < g.rank (pos + m)) :
    ¬(g.evaluateLoop k .earlyOut pos count i (pos + i) ((pos + j) :: next) s).sel.Nodup := by
  obtain ⟨m, him, hmc, hm⟩ := hex
  -- The rows before the first one that does not match are selected.
  induction hn : m - i generalizing i s with
  | zero =>
    obtain rfl : i = m := by omega
    exact not_nodup_of_jump_back hk hpos hb hj₀ hji hmc hst hsel hm
  | succ n ih =>
    have hlt : i < count := by omega
    rcases Nat.lt_or_ge k (g.rank (pos + i)) with h | h
    · exact not_nodup_of_jump_back hk hpos hb hj₀ hji hlt hst hsel h
    · rw [evaluateLoop_of_match (by decide) hlt hb h]
      refine ih (before_peerAfter hb) (by omega) (fun _ => ?_) (by omega) (by omega)
      rcases Nat.lt_or_ge j i with h' | h'
      · exact mem_append_left _ (hsel h')
      · exact mem_append_right _ (by simp; omega)

/-! ## Early out -/

/-- The starts of partitions in the rows `[a, b)`, in increasing order. -/
def startsIn (g : HashGroup) (a b : ℕ) : List ℕ := (range' a (b - a)).filter g.partitionMask

theorem startsIn_of_le {a b : ℕ} (h : b ≤ a) : g.startsIn a b = [] := by
  simp [startsIn, Nat.sub_eq_zero_of_le h]

theorem startsIn_of_start {a b : ℕ} (h : a < b) (hs : g.partitionMask a = true) :
    g.startsIn a b = a :: g.startsIn (a + 1) b := by
  simp [startsIn, range'_sub_eq_cons h, hs]

theorem startsIn_of_not_start {a b : ℕ} (h : a < b) (hs : g.partitionMask a ≠ true) :
    g.startsIn a b = g.startsIn (a + 1) b := by
  simp [startsIn, range'_sub_eq_cons h, hs]

theorem mem_startsIn {a b r : ℕ} : r ∈ g.startsIn a b ↔ a ≤ r ∧ r < b ∧ g.partitionMask r = true := by
  simp only [startsIn, mem_filter, mem_range'_1]
  exact ⟨fun ⟨⟨h₁, h₂⟩, h₃⟩ => ⟨h₁, by omega, h₃⟩, fun ⟨h₁, h₂, h₃⟩ => ⟨⟨h₁, by omega⟩, h₃⟩⟩

/-- The first of the starts, and the rest. -/
theorem startsIn_eq_cons {a b h : ℕ} {t : List ℕ} (heq : g.startsIn a b = h :: t) :
    (a ≤ h ∧ h < b ∧ g.partitionMask h = true) ∧ t = g.startsIn (h + 1) b ∧
      ∀ r, a ≤ r → r < h → g.partitionMask r ≠ true := by
  refine ⟨mem_startsIn.1 (heq ▸ mem_cons_self), ?_⟩
  induction hn : b - a generalizing a with
  | zero => simp [startsIn_of_le (show b ≤ a by omega)] at heq
  | succ n ih =>
    by_cases hs : g.partitionMask a = true
    · rw [startsIn_of_start (by omega) hs, cons.injEq] at heq
      obtain ⟨rfl, rfl⟩ := heq
      exact ⟨rfl, fun r h₁ h₂ => absurd h₁ (not_le.2 h₂)⟩
    · rw [startsIn_of_not_start (by omega) hs] at heq
      obtain ⟨h₁, h₂⟩ := ih heq (by omega)
      refine ⟨h₁, fun r hr hrh => ?_⟩
      rcases Nat.lt_or_ge a r with h' | h'
      · exact h₂ r h' hrh
      · obtain rfl : a = r := by omega
        exact hs

/-- From the row `i` on, no partition with a row beyond `k` comes after one without. -/
def NoneBehind (g : HashGroup) (k pos count i : ℕ) : Prop :=
  ∀ b, pos + i < b → b < pos + count → g.partitionMask b = true →
    (∃ r, b ≤ r ∧ r < pos + count ∧ k < g.rank r) → k < g.rank (b - 1)

/-- Early out selects the rows that match if no partition is left behind, and otherwise some row twice. -/
theorem evaluateLoop_earlyOut_sel (hk : 1 ≤ k) (hpos : pos + count < idxRange)
    (hb : g.Before s.peer (pos + i)) (hnx : next = g.startsIn (pos + i + 1) (pos + count)) :
    (g.NoneBehind k pos count i ∧ (g.evaluateLoop k .earlyOut pos count i (pos + i) next s).sel =
          s.sel ++ g.matching k pos count i) ∨
      (¬g.NoneBehind k pos count i ∧ ¬(g.evaluateLoop k .earlyOut pos count i (pos + i) next s).sel.Nodup) := by
  induction hn : count - i using Nat.strong_induction_on generalizing i next s with
  | _ n ih =>
  rcases Nat.lt_or_ge i count with hlt | hge
  swap
  · refine .inl ⟨fun b h₁ h₂ => by omega, ?_⟩
    rw [evaluateLoop_of_le hge, matching_of_le hge, append_nil]
  rcases Nat.lt_or_ge k (g.rank (pos + i)) with hrk | hrk
  · -- The row is beyond `k`: the loop goes to the next partition, if any.
    cases next with
    | nil =>
      have hno : ∀ b, pos + i < b → b < pos + count → g.partitionMask b ≠ true := fun b h₁ h₂ h₃ => by
          have : b ∈ g.startsIn (pos + i + 1) (pos + count) := mem_startsIn.2 ⟨h₁, h₂, h₃⟩
          rw [← hnx] at this
          exact not_mem_nil this
      refine .inl ⟨fun b h₁ h₂ h₃ => absurd h₃ (hno b h₁ h₂), ?_⟩
      rw [evaluateLoop_earlyOut_stop hlt hb hrk, matching_skip hlt.le le_rfl, matching_of_le le_rfl, append_nil]
      · rfl
      · exact fun m h₁ h₂ => hrk.trans_le
          (rank_mono (by omega) fun b h₃ h₄ => hno b h₃ (by omega))
    | cons b next =>
      obtain ⟨⟨hib, hbc, hst⟩, hnx', hno⟩ := startsIn_eq_cons hnx.symm
      obtain ⟨j, rfl⟩ : ∃ j, b = pos + j := ⟨b - pos, by omega⟩
      have hskip : ∀ m, i ≤ m → m < j → k < g.rank (pos + m) := fun m h₁ h₂ =>
        hrk.trans_le (rank_mono (by omega) fun b h₃ h₄ => hno b (by omega) (by omega))
      have hbhd : g.NoneBehind k pos count i ↔ g.NoneBehind k pos count j := by
        refine ⟨fun h b h₁ => h b (by omega), fun h b h₁ h₂ h₃ h₄ => ?_⟩
        rcases Nat.lt_trichotomy b (pos + j) with h₅ | h₅ | h₅
        · exact absurd h₃ (hno b (by omega) h₅)
        · have := hskip (j - 1) (by omega) (by omega)
          rwa [h₅, show pos + j - 1 = pos + (j - 1) by omega]
        · exact h b h₅ h₂ h₃ h₄
      rw [evaluateLoop_earlyOut_jump hlt hb hrk hpos (by omega) (by omega), hbhd,
        matching_skip (show i ≤ j by omega) (by omega) hskip]
      exact ih (count - j) (by omega) (.inl hst) hnx' rfl
  · rw [evaluateLoop_of_match (by decide) hlt hb hrk, matching_of_match hlt hrk]
    by_cases hst : i + 1 < count ∧ g.partitionMask (pos + i + 1) = true
    · -- The partition ends without a row beyond `k`: the iterator falls behind.
      rw [startsIn_of_start (by omega) hst.2] at hnx
      by_cases hex : ∃ m, i + 1 ≤ m ∧ m < count ∧ k < g.rank (pos + m)
      · refine .inr ⟨fun h => ?_, ?_⟩
        · obtain ⟨m, h₁, h₂, h₃⟩ := hex
          have := h (pos + i + 1) (by omega) (by omega) hst.2
            ⟨pos + m, by omega, by omega, h₃⟩
          rw [Nat.add_sub_cancel] at this
          omega
        · rw [hnx]
          exact not_nodup_of_behind hk hpos (before_peerAfter hb) (by omega) le_rfl hst.2
            (fun h => absurd h (lt_irrefl _)) hex
      · push Not at hex
        refine .inl ⟨fun b h₁ h₂ h₃ ⟨r, h₄, h₅, h₆⟩ => ?_, ?_⟩
        · have := hex (r - pos) (by omega) (by omega)
          rw [show pos + (r - pos) = r by omega] at this
          omega
        · rw [evaluateLoop_earlyOut_all (before_peerAfter hb) fun m h₁ h₂ => hex m h₁ h₂]
          simp [RankState.select, RankState.write]
    · have hnx' : next = g.startsIn (pos + (i + 1) + 1) (pos + count) := by
        rcases Nat.lt_or_ge (i + 1) count with h | h
        · rw [hnx, startsIn_of_not_start (by omega) fun h' => hst ⟨h, h'⟩]
          rfl
        · rw [hnx, startsIn_of_le (by omega), startsIn_of_le (by omega)]
      have hbhd : g.NoneBehind k pos count i ↔ g.NoneBehind k pos count (i + 1) := by
        refine ⟨fun h b h₁ => h b (by omega), fun h b h₁ h₂ h₃ h₄ => ?_⟩
        refine h b (lt_of_le_of_ne (by omega) fun h₅ => hst ⟨by omega, ?_⟩) h₂ h₃ h₄
        rw [show pos + i + 1 = b by omega]
        exact h₃
      rw [hbhd]
      refine (ih (count - (i + 1)) (by omega) (before_peerAfter hb) hnx' rfl).imp
        (fun ⟨h₁, h₂⟩ => ⟨h₁, ?_⟩) id
      rw [h₂]
      simp [RankState.select, RankState.write]

end Loop

/-! ## Co-evaluation with stop -/

/-- The rows of the chunk `c` that match, without early out. -/
theorem getData_filter_sel (c : ℕ) :
    (g.getData k .filter c).sel = g.matching k (g.position c) (g.chunkSize c) 0 := by
  exact evaluateLoop_filter_sel (i := 0) (before_init _)

/-- The iterator starts in step: past the start of the chunk, if that is one. -/
theorem dropWhile_partitionBegins {c : ℕ} (hc : c < g.chunks.length) :
    (g.partitionBegins c).dropWhile (· ≤ g.position c) =
      g.startsIn (g.position c + 0 + 1) (g.position c + g.chunkSize c) := by
  have hpos := ChunkedRows.chunkSize_pos hc
  have hall : ∀ r ∈ g.startsIn (g.position c + 1) (g.position c + g.chunkSize c),
      ¬decide (r ≤ g.position c) = true := fun r hr => by
    have := (mem_startsIn.1 hr).1
    simp only [decide_eq_true_eq]
    omega
  have hbegs : g.partitionBegins c = g.startsIn (g.position c) (g.position c + g.chunkSize c) := by
    rw [partitionBegins, startsIn, Nat.add_sub_cancel_left]
  rw [hbegs]
  by_cases hs : g.partitionMask (g.position c) = true
  · rw [startsIn_of_start (by omega) hs, dropWhile_cons_of_pos (by simp)]
    exact dropWhile_eq_self_iff.2 fun h => hall _ (getElem_mem h)
  · rw [startsIn_of_not_start (by omega) hs]
    exact dropWhile_eq_self_iff.2 fun h => hall _ (getElem_mem h)

theorem getData_earlyOut_sel {c : ℕ} (hk : 1 ≤ k) (hc : c < g.chunks.length) :
    (g.NoneBehind k (g.position c) (g.chunkSize c) 0 ∧
        (g.getData k .earlyOut c).sel = (g.getData k .filter c).sel) ∨
      (¬g.NoneBehind k (g.position c) (g.chunkSize c) 0 ∧
        ¬(g.getData k .earlyOut c).sel.Nodup) := by
  have hpos : g.position c + g.chunkSize c < idxRange :=
    (ChunkedRows.position_add_chunkSize_le hc).trans_lt g.count_lt
  rw [getData_filter_sel, getData, evaluateInternal]
  exact evaluateLoop_earlyOut_sel (i := 0) hk hpos (before_init _) (dropWhile_partitionBegins hc)

/-- Early out selects the rows of rank at most `k`, each once and in order. -/
structure EarlyOutLossless (g : HashGroup) (k c : ℕ) : Prop where
  sel_eq : (g.getData k .earlyOut c).sel = (g.getData k .filter c).sel
  matchCount_eq : (g.getData k .earlyOut c).matchCount = (g.getData k .filter c).matchCount
  selected : ∀ i < g.chunkSize c, g.rank (g.position c + i) ≤ k →
    (g.getData k .earlyOut c).sel.count i = 1
  only : ∀ i ∈ (g.getData k .earlyOut c).sel,
    i < g.chunkSize c ∧ g.rank (g.position c + i) ≤ k
  increasing : (g.getData k .earlyOut c).sel.Pairwise (· < ·)
  matchCount_le : (g.getData k .earlyOut c).matchCount ≤ g.chunkSize c

theorem EarlyOutLossless.of_sel_eq {c : ℕ}
    (h : (g.getData k .earlyOut c).sel = (g.getData k .filter c).sel) :
    EarlyOutLossless g k c := by
  have hsel := h.trans (getData_filter_sel c)
  have hinc : (g.getData k .earlyOut c).sel.Pairwise (· < ·) := by
    rw [hsel, matching]
    exact (pairwise_lt_range' 1).sublist filter_sublist
  refine ⟨h, congrArg length h, fun i hi hr => ?_, fun i hi => ?_, hinc, ?_⟩
  · simp [hsel, matching, hi, hr]
  · simpa [hsel, matching] using hi
  · rw [RankState.matchCount, hsel, matching]
    simpa using length_filter_le (fun j => decide (g.rank (g.position c + j) ≤ k))
      (range' 0 (g.chunkSize c))

/-- Early out is lossless exactly if no partition with a row beyond `k` comes after one without. -/
theorem earlyOut_lossless_iff (g : HashGroup) (k c : ℕ) (hk : 1 ≤ k) (hc : c < g.chunks.length) :
    EarlyOutLossless g k c ↔ g.NoneBehind k (g.position c) (g.chunkSize c) 0 := by
  rcases getData_earlyOut_sel hk hc with ⟨h₁, h₂⟩ | ⟨h₁, h₂⟩
  · exact ⟨fun _ => h₁, fun _ => .of_sel_eq h₂⟩
  · exact ⟨fun h => absurd (h.increasing.imp fun h => ne_of_lt h) h₂, fun h => absurd h h₁⟩

/-- Four rows without ties, in one chunk: the partition of the first `b` rows,
    and that of the others. -/
def fourRows (b : ℕ) : HashGroup where
  chunks := [4]
  partitionMask r := r == 0 || r == b
  orderMask _ := true
  chunks_pos := by decide
  chunks_le := by decide
  partition_zero := rfl
  order_of_partition _ _ := rfl
  count_lt := by decide

/-- A partition of three rows, left at its second row, and then one of one row. -/
theorem earlyOut_lossless_three_one : EarlyOutLossless (fourRows 3) 1 0 := by
  refine (earlyOut_lossless_iff (fourRows 3) 1 0 le_rfl (by decide)).2
    fun b h₁ h₂ h₃ ⟨r, h₄, h₅, h₆⟩ => ?_
  have hb₀ : 0 < b := h₁
  have hb : b < 4 := h₂
  have hr : r < 4 := h₅
  interval_cases b <;> interval_cases r <;> revert h₃ h₆ <;> decide

/-- A partition of one row, and then one of three, left at its second row: its
    first row is selected twice. -/
theorem earlyOut_selects_twice :
    (fourRows 1).chunkSize 0 = 4 ∧ ((fourRows 1).getData 1 .filter 0).sel = [0, 1] ∧
      ((fourRows 1).getData 1 .earlyOut 0).sel = [0, 1, 1] ∧
      ¬EarlyOutLossless (fourRows 1) 1 0 := by
  have hfilt : ((fourRows 1).getData 1 .filter 0).sel = [0, 1] := by
    rw [getData_filter_sel]
    decide
  have hearly : ((fourRows 1).getData 1 .earlyOut 0).sel = [0, 1, 1] := by
    simp [getData, evaluateInternal, evaluateLoop, partitionBegins, ChunkedRows.chunkSize, fourRows,
      partitionBegin, peerBegin, lastStart, Nat.findGreatest, PeerState.nextRank, RankState.write,
      RankState.select, idxSub, idxAdd, idxRange, range']
  exact ⟨rfl, hfilt, hearly, fun h => by simpa [hearly, hfilt] using h.sel_eq⟩

end HashGroup

end WfOpt

import WfOpt.Common.ValidityMask
import WfOpt.Window.Rank

/-!
# Ranks by chunks

The counters of `rank()` and `dense_rank()` run along the rows of a group, but its chunks may be evaluated in any
order. At the first row of a chunk the counters of `rank()` are set from the bounds of the row (`evaluateFrom`,
`evaluateChunks_rank`), and those of `dense_rank()` by counting the bits of the order mask before the row
(`denseRankBefore_eq`, `evaluateChunks_denseRank`).
-/

namespace WfOpt

open List

namespace HashGroup

variable (g : HashGroup) (k : ℕ) (e : RankExecutor)

/-! ## Definitions by rows -/

/-- The rows of the partition of a row that are before its peers. -/
def rowsBeforePeers (r : ℕ) : Finset ℕ :=
  (Finset.range g.count).filter fun s => g.partitionBegin s = g.partitionBegin r ∧ s < g.peerBegin r

/-- The groups of peers in the partition of a row up to its own, by their first rows. -/
def peerGroupsUpTo (r : ℕ) : Finset ℕ :=
  ((Finset.range (r + 1)).filter fun s => g.partitionBegin s = g.partitionBegin r).image g.peerBegin

variable {g}

/-- A row is in the partition of a later row if it is not before the start of that partition. -/
theorem partitionBegin_eq_of_le {s r : ℕ} (hsr : s ≤ r) :
    g.partitionBegin s = g.partitionBegin r ↔ g.partitionBegin r ≤ s := by
  constructor
  · intro h
    exact h ▸ lastStart_le _ s
  · intro h
    refine le_antisymm (lastStart_mono _ hsr) (le_lastStart ?_ h)
    exact lastStart_spec g.partition_zero r

theorem rowsBeforePeers_eq {r : ℕ} (hr : r < g.count) :
    g.rowsBeforePeers r = Finset.Ico (g.partitionBegin r) (g.peerBegin r) := by
  ext s
  have hpeer : g.peerBegin r ≤ r := lastStart_le _ r
  rw [rowsBeforePeers, Finset.mem_filter, Finset.mem_range, Finset.mem_Ico]
  constructor
  · rintro ⟨-, hpart, hlt⟩
    exact ⟨(partitionBegin_eq_of_le (hlt.le.trans hpeer)).1 hpart, hlt⟩
  · rintro ⟨hle, hlt⟩
    exact ⟨(hlt.trans_le hpeer).trans hr, (partitionBegin_eq_of_le (hlt.le.trans hpeer)).2 hle, hlt⟩

theorem rank_eq_card {r : ℕ} (hr : r < g.count) : g.rank r = 1 + (g.rowsBeforePeers r).card := by
  rw [rowsBeforePeers_eq hr, Nat.card_Ico, rank, add_comm]

theorem peerGroupsUpTo_eq (r : ℕ) : g.peerGroupsUpTo r =
    (Finset.Icc (g.partitionBegin r) r).filter fun s => g.orderMask s = true := by
  ext s
  rw [peerGroupsUpTo, Finset.mem_image, Finset.mem_filter, Finset.mem_Icc]
  constructor
  · rintro ⟨q, hq, rfl⟩
    rw [Finset.mem_filter, Finset.mem_range, Nat.lt_succ_iff] at hq
    have hord := lastStart_spec (g.order_of_partition 0 g.partition_zero) q
    exact ⟨⟨hq.2 ▸ g.partitionBegin_le_peerBegin q, (lastStart_le _ q).trans hq.1⟩, hord⟩
  · rintro ⟨⟨hle, hsr⟩, hord⟩
    refine ⟨s, ?_, peerBegin_eq_iff.2 hord⟩
    rw [Finset.mem_filter, Finset.mem_range, Nat.lt_succ_iff]
    exact ⟨hsr, (partitionBegin_eq_of_le hsr).2 hle⟩

/-! ## Rank -/

variable (g)

/-- `WindowRankExecutor::EvaluateInternal` without framing, with the counters of the chunk before. -/
def evaluateFrom (prev : PeerState) (count rowIdx : ℕ) (partitionBegins : List ℕ) : RankState :=
  let peer : PeerState := { prev with
      rank := (g.peerBegin rowIdx - g.partitionBegin rowIdx) + 1
      rankEqual := rowIdx - g.peerBegin rowIdx }
  let next := match e with
    | .earlyOut => partitionBegins.dropWhile (· ≤ rowIdx)
    | _ => []
  g.evaluateLoop k e rowIdx count 0 rowIdx next { peer := peer, rdata := fun _ => 0, sel := [] }

/-- The chunks are evaluated one after another, in any order. -/
def evaluateChunks : PeerState → List ℕ → List RankState
  | _, [] => []
  | prev, c :: cs =>
    let s := g.evaluateFrom k e prev (g.chunkSize c) (g.position c) (g.partitionBegins c)
    s :: evaluateChunks s.peer cs

variable {g k e} {pos count i : ℕ} {next : List ℕ} {s : RankState}

variable (g k pos next s) in
/-- Without early out, the loop goes on to the next row, whether the row is selected or not. -/
theorem evaluateLoop_next (he : e ≠ .earlyOut) (h : i < count) :
    ∃ sel, g.evaluateLoop k e pos count i (pos + i) next s =
      g.evaluateLoop k e pos count (i + 1) (pos + (i + 1)) next
        { s.write (g.peerAfter pos s i) i with sel := sel } := by
  rw [evaluateLoop, if_pos h]
  cases e with
  | plain => exact ⟨s.sel, rfl⟩
  | filter =>
    by_cases hk : (g.peerAfter pos s i).rank ≤ k
    · exact ⟨s.sel ++ [i], if_pos hk⟩
    · exact ⟨s.sel, if_neg hk⟩
  | earlyOut => exact absurd rfl he

/-- The loop does not change the rows before it. -/
theorem evaluateLoop_rdata_of_lt (he : e ≠ .earlyOut) {j : ℕ} (hj : j < i) :
    (g.evaluateLoop k e pos count i (pos + i) next s).rdata j = s.rdata j := by
  induction hn : count - i generalizing i s with
  | zero => rw [evaluateLoop_of_le (by omega)]
  | succ n ih =>
    obtain ⟨sel, hnx⟩ := g.evaluateLoop_next k pos next s he (show i < count by omega)
    rw [hnx, ih (hj.trans (Nat.lt_succ_self i)) (by omega)]
    exact Function.update_of_ne hj.ne _ _

theorem evaluateLoop_rdata (he : e ≠ .earlyOut) (hb : g.Before s.peer (pos + i)) {j : ℕ} (hij : i ≤ j)
    (hj : j < count) :
    (g.evaluateLoop k e pos count i (pos + i) next s).rdata j = g.rank (pos + j) := by
  induction hn : count - i generalizing i s with
  | zero => omega
  | succ n ih =>
    obtain ⟨sel, hnx⟩ := g.evaluateLoop_next k pos next s he (show i < count by omega)
    rw [hnx]
    rcases Nat.eq_or_lt_of_le hij with rfl | hlt
    · rw [evaluateLoop_rdata_of_lt he (Nat.lt_succ_self i)]
      exact (Function.update_self _ _ _).trans (rank_peerAfter hb)
    · exact ih (before_peerAfter hb) hlt (by omega)

variable (g k)

/-- What is evaluated of a chunk: the ranks, by their definition, and the selected rows. -/
structure ChunkRanks (useFilter : Bool) (c : ℕ) (s : RankState) : Prop where
  rdata : ∀ i < g.chunkSize c, s.rdata i = 1 + (g.rowsBeforePeers (g.position c + i)).card
  sel : useFilter = true → s.sel = (List.range (g.chunkSize c)).filter fun i =>
    1 + (g.rowsBeforePeers (g.position c + i)).card ≤ k

variable {g k}

/-- The rows of a chunk are rows of the group. -/
theorem position_add_lt {c : ℕ} (hi : i < g.chunkSize c) : g.position c + i < g.count := by
  by_cases hc : c < g.chunks.length
  · exact (Nat.add_lt_add_left hi _).trans_le (ChunkedRows.position_add_chunkSize_le hc)
  · rw [ChunkedRows.chunkSize, getD_eq_default _ _ (not_lt.1 hc)] at hi
    exact absurd hi (Nat.not_lt_zero i)

theorem evaluateFrom_chunkRanks (useFilter : Bool) (prev : PeerState) (c : ℕ) :
    g.ChunkRanks k useFilter c (g.evaluateFrom k (windowExecutorFactory useFilter false) prev
      (g.chunkSize c) (g.position c) (g.partitionBegins c)) where
  rdata i hi := by
    have he : windowExecutorFactory useFilter false ≠ .earlyOut := by
      cases useFilter <;> exact nofun
    rw [← rank_eq_card (position_add_lt hi)]
    exact evaluateLoop_rdata (i := 0) he (before_init (g.position c)) (Nat.zero_le i) hi
  sel h := by
    subst h
    have hsel : (g.evaluateFrom k .filter prev (g.chunkSize c) (g.position c)
        (g.partitionBegins c)).sel = [] ++ g.matching k (g.position c) (g.chunkSize c) 0 :=
      evaluateLoop_filter_sel (i := 0) (before_init (g.position c))
    refine hsel.trans ?_
    rw [matching, Nat.sub_zero, ← range_eq_range', nil_append]
    refine filter_congr fun i hi => ?_
    rw [rank_eq_card (position_add_lt (mem_range.1 hi))]

/-- Whatever the chunks and their order, the ranks are right, and the rows of rank at most `k` are selected in order. -/
theorem evaluateChunks_rank (g : HashGroup) (k : ℕ) (useFilter : Bool) (prev : PeerState)
    (cs : List ℕ) : List.Forall₂ (g.ChunkRanks k useFilter) cs
      (g.evaluateChunks k (windowExecutorFactory useFilter false) prev cs) := by
  induction cs generalizing prev with
  | nil => exact .nil
  | cons c cs ih => exact .cons (evaluateFrom_chunkRanks useFilter prev c) (ih _)

end HashGroup

/-! ## Dense rank -/

/-- A group with the entries of its order mask. -/
structure EntryGroup extends HashGroup where
  orderEntries : ℕ → BitVec 64
  order_eq : ∀ r < toHashGroup.count, (⟨some orderEntries⟩ : ValidityMask).rowIsValid r =
    toHashGroup.orderMask r

namespace EntryGroup

variable (g : EntryGroup)

/-- The order mask of the group. -/
def order : ValidityMask := ⟨some g.orderEntries⟩

/-- The bits of an entry from an offset on. -/
def countBits (entry : BitVec 64) (begin stop : ℕ) : ℕ :=
  (List.range' begin (stop - begin)).countP fun j => entry.getLsbD j

/-- The bits of the order mask from the start of the partition to a row: in one entry, or first in that of the start. -/
def denseRankBefore (orderBegin orderEnd : ℕ) : ℕ := let beginIdx := orderBegin / 64
  let beginOffset := orderBegin % 64
  let endIdx := orderEnd / 64
  if beginIdx = endIdx then countBits (g.order.getValidityEntry beginIdx) beginOffset (orderEnd % 64)
  else
    let ragged := if beginOffset = 0 then 0
      else countBits (g.order.getValidityEntry beginIdx) beginOffset 64
    let orderBegin := if beginOffset = 0 then orderBegin else orderBegin + (64 - beginOffset)
    let beginIdx := if beginOffset = 0 then beginIdx else beginIdx + 1
    let tailMask : ValidityMask := ⟨some fun i => g.orderEntries (beginIdx + i)⟩
    ragged + tailMask.countValid (orderEnd - orderBegin)

/-- The loop of `WindowDenseRankExecutor::EvaluateInternal` over the rows of a chunk. -/
def denseRankLoop (rowIdx : ℕ) : ℕ → ℕ → PeerState → (ℕ → ℕ) → PeerState × (ℕ → ℕ)
  | 0, _, peer, rdata => (peer, rdata)
  | n + 1, i, peer, rdata =>
    let peer := peer.nextRank (g.partitionBegin (rowIdx + i)) (g.peerBegin (rowIdx + i)) (rowIdx + i)
    denseRankLoop rowIdx n (i + 1) peer (Function.update rdata i peer.denseRank)

/-- `WindowDenseRankExecutor::EvaluateInternal`, over a chunk. -/
def evaluateDenseRank (count rowIdx : ℕ) : PeerState × (ℕ → ℕ) :=
  let peer : PeerState :=
    { rank := (g.peerBegin rowIdx - g.partitionBegin rowIdx) + 1
      rankEqual := rowIdx - g.peerBegin rowIdx
      denseRank := g.denseRankBefore (g.partitionBegin rowIdx) rowIdx }
  g.denseRankLoop rowIdx count 0 peer fun _ => 0

variable {g}

/-- The number of groups of peers that start in a range of rows. -/
def startsBetween (g : HashGroup) (a b : ℕ) : ℕ := ((Finset.Ico a b).filter fun s => g.orderMask s = true).card

theorem startsBetween_eq_countP (g : HashGroup) (a b : ℕ) :
    startsBetween g a b = (List.range' a (b - a)).countP fun s => g.orderMask s := by
  rw [startsBetween, countP_eq_length_filter]
  change (filter (fun s => decide (g.orderMask s = true)) (range' a (b - a))).length = _
  simp only [Bool.decide_eq_true]

theorem startsBetween_add {a b c : ℕ} (hab : a ≤ b) (hbc : b ≤ c) :
    startsBetween g.toHashGroup a b + startsBetween g.toHashGroup b c = startsBetween g.toHashGroup a c := by
  rw [startsBetween, startsBetween, startsBetween, ← Finset.card_union_of_disjoint,
    ← Finset.filter_union, Finset.Ico_union_Ico_eq_Ico hab hbc]
  exact Finset.disjoint_filter_filter (Finset.Ico_disjoint_Ico_consecutive a b c)

theorem startsBetween_succ {a r : ℕ} (h : a ≤ r) : startsBetween g.toHashGroup a (r + 1) =
    startsBetween g.toHashGroup a r + if g.orderMask r = true then 1 else 0 := by
  rw [← startsBetween_add h (Nat.le_succ r), startsBetween_eq_countP g.toHashGroup r,
    Nat.succ_sub le_rfl, Nat.sub_self, range'_one, countP_singleton]

theorem countBits_eq {i b e : ℕ} (he : e ≤ 64) (hcnt : 64 * i + e ≤ g.count) :
    countBits (g.order.getValidityEntry i) b e = startsBetween g.toHashGroup (64 * i + b) (64 * i + e) := by
  have hrng : range' (64 * i + b) (64 * i + e - (64 * i + b)) = (range' b (e - b)).map fun j => 64 * i + j := by
    rw [map_add_range', Nat.add_sub_add_left]
  rw [countBits, startsBetween_eq_countP, hrng, countP_map]
  refine countP_congr fun j hj => ?_
  rw [mem_range'_1] at hj
  have hj : j < e := by omega
  have hbit := g.order_eq (64 * i + j) ((Nat.add_lt_add_left hj _).trans_le hcnt)
  have hdiv : (64 * i + j) / 64 = i := by omega
  have hmod : (64 * i + j) % 64 = j := by omega
  rw [ValidityMask.rowIsValid, hdiv, hmod] at hbit
  change (g.order.getValidityEntry i).getLsbD j = true ↔ g.orderMask (64 * i + j) = true
  rw [← hbit]
  exact Iff.rfl

/-- The bits of the entries from an aligned row on. -/
theorem countValid_tail {i n : ℕ} (hcnt : 64 * i + n ≤ g.count) :
    (⟨some fun j => g.orderEntries (i + j)⟩ : ValidityMask).countValid n =
      startsBetween g.toHashGroup (64 * i) (64 * i + n) := by
  have hrng : range' (64 * i) (64 * i + n - 64 * i) = (range n).map fun j => 64 * i + j := by
    rw [Nat.add_sub_cancel_left, range_eq_range', map_add_range', Nat.add_zero]
  rw [ValidityMask.countValid_eq, startsBetween_eq_countP, hrng, countP_map]
  refine countP_congr fun j hj => ?_
  have hj := mem_range.1 hj
  have hbit := g.order_eq (64 * i + j) ((Nat.add_lt_add_left hj _).trans_le hcnt)
  have hdiv : (64 * i + j) / 64 = i + j / 64 := by omega
  have hmod : (64 * i + j) % 64 = j % 64 := by omega
  change (g.orderEntries (i + j / 64)).getLsbD (j % 64) = true ↔ g.orderMask (64 * i + j) = true
  rw [← hbit, ← hdiv, ← hmod]
  exact Iff.rfl

/-- However the start and the row are aligned, the bits between them are counted. -/
theorem denseRankBefore_eq {b r : ℕ} (hbr : b ≤ r) (hr : r ≤ g.count) :
    g.denseRankBefore b r = startsBetween g.toHashGroup b r := by
  have hb : 64 * (b / 64) + b % 64 = b := Nat.div_add_mod b 64
  have he : 64 * (r / 64) + r % 64 = r := Nat.div_add_mod r 64
  simp only [denseRankBefore]
  by_cases hent : b / 64 = r / 64
  · -- the bits are in one entry
    rw [if_pos hent, countBits_eq (Nat.mod_lt r (by decide)).le (by omega), hb, hent, he]
  · rw [if_neg hent]
    by_cases hoff : b % 64 = 0
    · -- the partition starts at an entry
      rw [if_pos hoff, if_pos hoff, if_pos hoff, Nat.zero_add, countValid_tail (by omega)]
      have hst : 64 * (b / 64) = b := by omega
      rw [hst, Nat.add_sub_cancel' hbr]
    · rw [if_neg hoff, if_neg hoff, if_neg hoff, countBits_eq le_rfl (by omega), countValid_tail (by omega)]
      have hst : 64 * (b / 64 + 1) = b + (64 - b % 64) := by omega
      have hle : b + (64 - b % 64) ≤ r := by omega
      rw [hb, ← Nat.mul_succ, Nat.succ_eq_add_one, hst, Nat.add_sub_cancel' hle,
        startsBetween_add (Nat.le_add_right _ _) hle]

theorem card_peerGroupsUpTo (r : ℕ) : (g.peerGroupsUpTo r).card =
    startsBetween g.toHashGroup (g.partitionBegin r) (r + 1) := by
  rw [HashGroup.peerGroupsUpTo_eq, startsBetween]
  rfl

/-- The counter before a row is that of the row before, unless the row starts a partition. -/
def DenseBefore (g : HashGroup) (s : PeerState) (r : ℕ) : Prop :=
  g.partitionMask r = true ∨ s.denseRank = startsBetween g (g.partitionBegin r) r

theorem denseRank_nextRank {s : PeerState} {r : ℕ} (h : DenseBefore g.toHashGroup s r) :
    (s.nextRank (g.partitionBegin r) (g.peerBegin r) r).denseRank =
      startsBetween g.toHashGroup (g.partitionBegin r) (r + 1) := by
  have hle : g.partitionBegin r ≤ r := lastStart_le _ r
  rw [startsBetween_succ hle, PeerState.nextRank]
  by_cases hp : g.partitionMask r = true
  · have hpart := HashGroup.partitionBegin_eq_iff.2 hp
    have hno : startsBetween g.toHashGroup (g.partitionBegin r) r = 0 := by
      rw [hpart, startsBetween, Finset.Ico_self, Finset.filter_empty, Finset.card_empty]
    rw [if_pos hpart, hno, if_pos (g.order_of_partition r hp)]
  · rw [if_neg fun hpart => hp (HashGroup.partitionBegin_eq_iff.1 hpart)]
    have hdense := h.resolve_left hp
    by_cases ho : g.orderMask r = true
    · rw [if_pos (HashGroup.peerBegin_eq_iff.2 ho), if_pos ho, ← hdense]
    · rw [if_neg fun hpeer => ho (HashGroup.peerBegin_eq_iff.1 hpeer), if_neg ho, Nat.add_zero, ← hdense]
      rfl

theorem denseBefore_succ {s : PeerState} {r : ℕ}
    (h : s.denseRank = startsBetween g.toHashGroup (g.partitionBegin r) (r + 1)) :
    DenseBefore g.toHashGroup s (r + 1) := by
  by_cases hp : g.partitionMask (r + 1) = true
  · exact .inl hp
  · have hpart : g.partitionBegin (r + 1) = g.partitionBegin r := lastStart_of_not_start hp
    exact .inr (hpart ▸ h)

/-- The loop does not change the rows before it. -/
theorem denseRankLoop_of_lt {rowIdx n i j : ℕ} (hj : j < i) (peer : PeerState) (rdata : ℕ → ℕ) :
    (g.denseRankLoop rowIdx n i peer rdata).2 j = rdata j := by
  induction n generalizing i peer rdata with
  | zero => rfl
  | succ n ih =>
    rw [denseRankLoop, ih (hj.trans (Nat.lt_succ_self i))]
    exact Function.update_of_ne hj.ne _ _

theorem denseRankLoop_eq {rowIdx n i j : ℕ} {peer : PeerState} (rdata : ℕ → ℕ)
    (h : DenseBefore g.toHashGroup peer (rowIdx + i)) (hij : i ≤ j) (hj : j < i + n) :
    (g.denseRankLoop rowIdx n i peer rdata).2 j =
      startsBetween g.toHashGroup (g.partitionBegin (rowIdx + j)) (rowIdx + j + 1) := by
  induction n generalizing i peer rdata with
  | zero => exact absurd hj (not_lt.2 hij)
  | succ n ih =>
    have hdense := denseRank_nextRank h
    rw [denseRankLoop]
    rcases Nat.eq_or_lt_of_le hij with rfl | hlt
    · rw [denseRankLoop_of_lt (Nat.lt_succ_self i)]
      exact (Function.update_self _ _ _).trans hdense
    · exact ih _ (denseBefore_succ hdense) hlt (by omega)

/-- Whatever the chunks, the dense rank of a row is the number of the groups of peers in its partition up to its own. -/
theorem evaluateChunks_denseRank (g : EntryGroup) (c i : ℕ) (hi : i < g.chunkSize c) :
    (g.evaluateDenseRank (g.chunkSize c) (g.position c)).2 i =
      (g.peerGroupsUpTo (g.position c + i)).card := by
  have hcnt : g.position c + i < g.count := HashGroup.position_add_lt hi
  rw [card_peerGroupsUpTo]
  refine denseRankLoop_eq _ (.inr ?_) (Nat.zero_le i) (by rwa [Nat.zero_add])
  exact denseRankBefore_eq (lastStart_le _ _) (by omega)

/-- Two chunks of two rows, in one partition whose peers are the first row and the other three. -/
def pairsOfPeers : EntryGroup where
  chunks := [2, 2]
  partitionMask r := r == 0
  orderMask r := r == 0 || r == 1
  orderEntries _ := 3
  chunks_pos := by decide
  chunks_le := by decide
  partition_zero := rfl
  order_of_partition r h := by rw [h, Bool.true_or]
  count_lt := by decide
  order_eq := by decide

theorem evaluateChunks_denseRank_pairs : (pairsOfPeers.evaluateDenseRank (pairsOfPeers.chunkSize 1)
    (pairsOfPeers.position 1)).2 1 = (pairsOfPeers.peerGroupsUpTo (pairsOfPeers.position 1 + 1)).card :=
  evaluateChunks_denseRank pairsOfPeers 1 1 (by decide)

end EntryGroup

end WfOpt

import WfOpt.Window.PeerBounds

/-!
# Frames of groups

The bounds of a frame of groups are a number of groups of peers before or behind that of the current row. They are
found by counting the bits of the order mask, backwards or forwards from the peers. The groups of a partition are
numbered by the marks of the mask (`groupStart`), and counting leads to the group the offset tells, or to a bound of
the partition if there are not enough (`groupsFrames_right`).
-/

namespace WfOpt

namespace WindowBoundaries

open BoundWindowExpression List

variable {V : Type*} (g : WindowBoundaries V)

/-! ## The groups of a partition -/

/-- The starts of the groups of peers of a partition. -/
def groupStarts (partitionBegin partitionEnd : ℕ) : List ℕ :=
  marks g.orderMask.rowIsValid partitionBegin partitionEnd

/-- The start of a group, or the end of the partition behind the last one. -/
def groupStart (partitionBegin partitionEnd k : ℕ) : ℕ :=
  (g.groupStarts partitionBegin partitionEnd)[k]?.getD partitionEnd

/-- The end of a group is the start of the next one, or the end of the partition. -/
def groupEnd (partitionBegin partitionEnd k : ℕ) : ℕ := g.groupStart partitionBegin partitionEnd (k + 1)

/-- The row is in group `k` of its partition: its peers start where the group does. -/
structure InPeerGroup (r pb pe k : ℕ) : Prop where
  partitionBegin : IsStartOf g.partitionMask.rowIsValid r pb
  partitionEnd : IsEndOf g.partitionMask.rowIsValid g.inputSize r pe
  lt : k < (g.groupStarts pb pe).length
  peers : IsStartOf g.orderMask.rowIsValid r (g.groupStart pb pe k)

section Bounds

variable (pb pe k n : ℕ)

/-- The start of a frame `n` groups before group `k`. -/
def precedingStart : ℕ := if k < n then pb else g.groupStart pb pe (k - n)

/-- The start of a frame `n` groups behind group `k`. -/
def followingStart : ℕ := if k + n < (g.groupStarts pb pe).length then g.groupStart pb pe (k + n) else pe

/-- The end of a frame `n` groups before group `k`. -/
def precedingEnd : ℕ := if k < n then pb else g.groupEnd pb pe (k - n)

/-- The end of a frame `n` groups behind group `k`, or the last one. -/
def followingEnd : ℕ := g.groupEnd pb pe (min (k + n) ((g.groupStarts pb pe).length - 1))

end Bounds

variable {g} {r pb pe k n : ℕ}

namespace InPeerGroup

variable (h : g.InPeerGroup r pb pe k)

include h

theorem getElem?_groupStarts : (g.groupStarts pb pe)[k]? = some (g.groupStart pb pe k) := by
  rw [groupStart, getElem?_eq_getElem h.lt]
  rfl

theorem mem_range : pb ≤ g.groupStart pb pe k ∧ g.groupStart pb pe k < pe := by
  obtain ⟨hl, hr, -⟩ := mem_marks.1 (mem_of_getElem? h.getElem?_groupStarts)
  exact ⟨hl, hr⟩

theorem length_before : (marks g.orderMask.rowIsValid pb (g.groupStart pb pe k)).length = k :=
  length_marks_of_getElem h.getElem?_groupStarts

theorem groupStarts_eq : g.groupStarts pb pe = marks g.orderMask.rowIsValid pb (g.groupStart pb pe k) ++
    g.groupStart pb pe k :: marks g.orderMask.rowIsValid (g.groupStart pb pe k + 1) pe :=
  marks_split h.mem_range.1 h.mem_range.2 h.peers.marked

theorem getElem?_before {j : ℕ} (hj : j < k) :
    (marks g.orderMask.rowIsValid pb (g.groupStart pb pe k))[j]? = (g.groupStarts pb pe)[j]? := by
  conv_rhs => rw [h.groupStarts_eq]
  rw [getElem?_append_left (by rwa [h.length_before])]

theorem getElem?_behind (j : ℕ) : (marks g.orderMask.rowIsValid (g.groupStart pb pe k + 1) pe)[j]? =
      (g.groupStarts pb pe)[k + 1 + j]? := by
  have hidx : k + 1 + j - k = j + 1 := by omega
  conv_rhs => rw [h.groupStarts_eq]
  rw [getElem?_append_right (by rw [h.length_before]; omega), h.length_before, hidx, getElem?_cons_succ]

theorem peersEnd {w : ℕ} (hw : IsEndOf g.orderMask.rowIsValid g.inputSize r w)
    (hg : g.IsGroup) : w = g.groupEnd pb pe k := by
  have hstp : w ≤ pe := peers_le_partitionEnd hg h.partitionEnd hw
  -- no mark before the end of the peers
  have hskip : nthMark g.orderMask.rowIsValid (g.groupStart pb pe k + 1) pe 1 =
      nthMark g.orderMask.rowIsValid w pe 1 := by
    refine nthMark_skip (Nat.succ_le_of_lt (h.peers.le.trans_lt hw.lt)) fun i h₁ h₂ => ?_
    rcases Nat.lt_or_ge r i with hlt | hge
    · exact hw.inner i hlt h₂
    · exact h.peers.inner i h₁ hge
  have hfind : (nthMark g.orderMask.rowIsValid w pe 1).1 = w := by
    rcases hstp.eq_or_lt with heq | hlt
    · rw [nthMark_of_le heq.ge]
      exact heq.symm
    · have hmark := hw.stop.resolve_left (hlt.trans_le h.partitionEnd.le).ne
      rw [nthMark_one hlt hmark]
  rw [groupEnd, groupStart, ← Nat.add_zero (k + 1), ← h.getElem?_behind 0, ← hfind, ← hskip]
  rfl

theorem groupStarts_zero (hg : g.IsGroup) : (g.groupStarts pb pe)[0]? = some pb := by
  have hlt : pb < pe := h.partitionBegin.le.trans_lt h.partitionEnd.lt
  have hmark := hg.order_of_partition pb (hlt.trans_le h.partitionEnd.le) h.partitionBegin.marked
  rw [groupStarts, marks_cons hlt hmark]
  rfl

end InPeerGroup

namespace InPeerGroup

variable (h : g.InPeerGroup r pb pe k)

include h

/-! ## Counting groups -/

theorem findPrevStart_begin (hn : 1 ≤ n) :
    (g.orderMask.findPrevStart pb (g.groupStart pb pe k) n).1 = g.precedingStart pb pe k n := by
  rw [ValidityMask.findPrevStart_eq hn h.mem_range.1, nthMarkBack_fst hn, h.length_before, precedingStart]
  by_cases hle : n ≤ k
  · have hidx : k - n < (g.groupStarts pb pe).length := (Nat.sub_le k n).trans_lt h.lt
    rw [if_pos hle, if_neg (not_lt.2 hle), h.getElem?_before (by omega), groupStart, getElem?_eq_getElem hidx]
    rfl
  · rw [if_neg hle, if_pos (not_le.1 hle)]

theorem findNextStart_begin (hn : 1 ≤ n) :
    (g.orderMask.findNextStart (g.groupStart pb pe k + 1) pe n).1 = g.followingStart pb pe k n := by
  have hidx : k + 1 + (n - 1) = k + n := by omega
  have hfind : (nthMark g.orderMask.rowIsValid (g.groupStart pb pe k + 1) pe n).1 = g.groupStart pb pe (k + n) := by
    rw [nthMark, h.getElem?_behind, hidx]
    rfl
  rw [ValidityMask.findNextStart_eq hn, hfind, followingStart]
  by_cases hlt : k + n < (g.groupStarts pb pe).length
  · rw [if_pos hlt]
  · rw [if_neg hlt, groupStart, getElem?_eq_none (not_lt.1 hlt)]
    rfl

/-- Counting from the end of the group, the group itself is the first one. -/
theorem findPrevStart_end (hg : g.IsGroup) (hn : 1 ≤ n) (hend : IsEndOf g.orderMask.rowIsValid g.inputSize r
    (g.groupEnd pb pe k)) :
    (g.orderMask.findPrevStart pb (g.groupEnd pb pe k) n).1 = g.precedingEnd pb pe k n := by
  have hlt : g.groupStart pb pe k < g.groupEnd pb pe k := h.peers.le.trans_lt hend.lt
  have hinner : marks g.orderMask.rowIsValid (g.groupStart pb pe k + 1) (g.groupEnd pb pe k) = [] := by
    refine marks_eq_nil fun i h₁ h₂ => ?_
    rcases Nat.lt_or_ge r i with hri | hri
    · exact hend.inner i hri h₂
    · exact h.peers.inner i h₁ hri
  have hspl : marks g.orderMask.rowIsValid pb (g.groupEnd pb pe k) =
      marks g.orderMask.rowIsValid pb (g.groupStart pb pe k) ++ [g.groupStart pb pe k] := by
    rw [marks_split h.mem_range.1 hlt h.peers.marked, hinner]
  have hlen : (marks g.orderMask.rowIsValid pb (g.groupEnd pb pe k)).length = k + 1 := by
    rw [hspl, length_append, h.length_before]
    rfl
  rw [ValidityMask.findPrevStart_eq hn (h.mem_range.1.trans hlt.le), nthMarkBack_fst hn, hlen, precedingEnd]
  by_cases hle : n ≤ k
  · -- the start of the next group is that of the mark that is found
    have hidx : k + 1 - n = k - n + 1 := by omega
    have hsts : (marks g.orderMask.rowIsValid pb (g.groupEnd pb pe k))[k - n + 1]? =
        (g.groupStarts pb pe)[k - n + 1]? := by
      rw [hspl, h.groupStarts_eq]
      rcases Nat.lt_or_ge (k - n + 1) k with hbef | hbhd
      · rw [getElem?_append_left (by rwa [h.length_before]), getElem?_append_left (by rwa [h.length_before])]
      · have hz : k - n + 1 - k = 0 := by omega
        rw [getElem?_append_right (by rwa [h.length_before]),
          getElem?_append_right (by rwa [h.length_before]), h.length_before, hz]
        rfl
    have hexists : k - n + 1 < (g.groupStarts pb pe).length := by
      have hlt := h.lt
      omega
    rw [if_pos (by omega), if_neg (not_lt.2 hle), hidx, hsts, groupEnd, groupStart, getElem?_eq_getElem hexists]
    rfl
  · rw [if_pos (not_le.1 hle)]
    by_cases hsucc : n ≤ k + 1
    · -- the first mark is that of the partition
      have hz : k + 1 - n = 0 := by omega
      have hfst : (marks g.orderMask.rowIsValid pb (g.groupEnd pb pe k))[0]? = some pb := by
        have hsts := h.groupStarts_zero hg
        rw [h.groupStarts_eq] at hsts
        rw [hspl]
        cases hmarks : marks g.orderMask.rowIsValid pb (g.groupStart pb pe k) with
        | nil | cons u l =>
          rw [hmarks] at hsts
          exact hsts
      rw [if_pos hsucc, hz, hfst]
      rfl
    · rw [if_neg hsucc]

theorem findNextStart_end (hn : 1 ≤ n) :
    (g.orderMask.findNextStart (g.groupEnd pb pe k + 1) pe n).1 = g.followingEnd pb pe k n := by
  rw [ValidityMask.findNextStart_eq hn, followingEnd]
  rcases Nat.lt_or_ge (k + 1) (g.groupStarts pb pe).length with hlt | hge
  · -- the next group starts where the group ends
    have hnx : (g.groupStarts pb pe)[k + 1]? = some (g.groupEnd pb pe k) := by
      rw [groupEnd, groupStart, getElem?_eq_getElem hlt]
      rfl
    obtain ⟨hl, hr, hp⟩ := mem_marks.1 (mem_of_getElem? hnx)
    have hbhd : (marks g.orderMask.rowIsValid (g.groupEnd pb pe k + 1) pe)[n - 1]? =
        (g.groupStarts pb pe)[k + n + 1]? := by
      have hidx : k + n + 1 - (k + 1) = n - 1 + 1 := by omega
      conv_rhs => rw [groupStarts, marks_split hl hr hp]
      rw [getElem?_append_right (by rw [length_marks_of_getElem hnx]; omega),
        length_marks_of_getElem hnx, hidx, getElem?_cons_succ]
    have hfind : (nthMark g.orderMask.rowIsValid (g.groupEnd pb pe k + 1) pe n).1 = g.groupEnd pb pe (k + n) := by
      rw [nthMark, hbhd]
      rfl
    rw [hfind]
    by_cases hin : k + n < (g.groupStarts pb pe).length
    · rw [min_eq_left (by omega)]
    · rw [min_eq_right (by omega), groupEnd, groupEnd, groupStart, groupStart,
        getElem?_eq_none (by omega), getElem?_eq_none (by omega)]
  · -- the group is the last one
    have hlst : k + 1 = (g.groupStarts pb pe).length := le_antisymm h.lt hge
    have hend : ∀ j, k ≤ j → g.groupEnd pb pe j = pe := by
      intro j hj
      rw [groupEnd, groupStart, getElem?_eq_none (by omega)]
      rfl
    rw [hend k le_rfl, nthMark_of_le (Nat.le_succ pe), hend _ (by omega)]

end InPeerGroup

/-! ## Offsets -/

variable {call : BoundsCall V} {boundary : WindowInputExpression V} {i peer : ℕ} {text : String}
  {search : ℕ → ℕ}

/-- An offset that is `NULL` or not negative gives a bound. -/
theorem groupsBound_of_nonneg (h : boundary.cellIsNull i = false → 0 ≤ (boundary.getInt64 i).toInt) :
    groupsBound boundary i peer text search = .ok ((), if boundary.cellIsNull i then peer
      else if (boundary.getInt64 i).toNat = 0 then peer else search (boundary.getInt64 i).toNat) := by
  rw [groupsBound]
  cases hnl : boundary.cellIsNull i with
  | true => rfl
  | false =>
    have hz : boundary.getInt64 i = 0 ↔ (boundary.getInt64 i).toNat = 0 := by
      rw [BitVec.toNat_eq]
      rfl
    rw [if_neg Bool.false_ne_true, if_neg Bool.false_ne_true]
    rw [if_neg (not_lt.2 (h hnl))]
    by_cases hn : (boundary.getInt64 i).toNat = 0
    · rw [if_pos (hz.2 hn), if_pos hn]
    · rw [if_neg fun h' => hn (hz.1 h'), if_neg hn]

/-- A negative offset is an error. -/
theorem groupsBound_of_neg (hnl : boundary.cellIsNull i = false) (h : (boundary.getInt64 i).toInt < 0) :
    groupsBound boundary i peer text search = .error (.outOfRange text) := by
  rw [groupsBound, hnl, if_neg Bool.false_ne_true]
  exact if_pos h

variable (g) in
/-- The bounds of the frames are computed from the offsets that are not `NULL`, of which no one may be negative. -/
structure GroupsBound (call : BoundsCall V) (boundary : WindowInputExpression V) (c : BoundsColumn)
    (x : Except BoundsError BoundsColumns) (bound : ℕ → ℕ → ℕ → ℕ → ℕ) : Prop where
  computed : (∀ i < call.count, boundary.cellIsNull i = false → 0 ≤ (boundary.getInt64 i).toInt) →
    ∃ b', x = .ok b' ∧ ∀ i < call.count, boundary.cellIsNull i = false →
      ∀ pb pe k, g.InPeerGroup (call.rowIdx + i) pb pe k →
        b' c i = bound pb pe k (boundary.getInt64 i).toNat
  negative : (∃ i < call.count, boundary.cellIsNull i = false ∧ (boundary.getInt64 i).toInt < 0) →
    ∃ text, x = .error (.outOfRange text)

theorem groupsBound_of_search {b : BoundsColumns} {c : BoundsColumn} {bound : ℕ → ℕ → ℕ → ℕ → ℕ}
    {peers : ℕ → ℕ} {find : ℕ → ℕ → ℕ} (hbeg : .partitionBegin ≠ c) (hend : .partitionEnd ≠ c)
    (hpart : ∀ i < call.count, IsStartOf g.partitionMask.rowIsValid (call.rowIdx + i) (b .partitionBegin i) ∧
      IsEndOf g.partitionMask.rowIsValid g.inputSize (call.rowIdx + i) (b .partitionEnd i))
    (hprs : ∀ i < call.count, ∀ pb pe k, g.InPeerGroup (call.rowIdx + i) pb pe k →
      b .partitionBegin i = pb → b .partitionEnd i = pe →
        peers i = bound pb pe k 0 ∧ (∀ n, 1 ≤ n → find i n = bound pb pe k n) ∧
          ∀ n, pb ≤ bound pb pe k n ∧ bound pb pe k n ≤ pe) :
    g.GroupsBound call boundary c (storeFrame call b c
      (tryCells (fun i _ => groupsBound boundary i (peers i) text (find i)) call.count 0 ())) bound := by
  constructor
  · intro hnn
    obtain ⟨_, vs, hrun, -, hlen, hall⟩ := tryCells_spec (ε := BoundsError)
      (n := call.count) (i := 0) (s := ()) (I := fun _ _ => True)
      (Q := fun i v => v = if boundary.cellIsNull i then peers i
        else if (boundary.getInt64 i).toNat = 0 then peers i else find i (boundary.getInt64 i).toNat)
      trivial fun j _ _ hj _ =>
        ⟨(), _, groupsBound_of_nonneg (hnn j (by omega)), trivial, rfl⟩
    rw [hrun]
    refine ⟨(b.store c vs).clampFrame call.count c, rfl, fun i hi hnl pb pe k hrow => ?_⟩
    obtain ⟨hst, hstp⟩ := hpart i hi
    obtain ⟨hz, hfind, hrng⟩ := hprs i hi pb pe k hrow
      (hst.unique hrow.partitionBegin) (hstp.unique hrow.partitionEnd)
    have hval := hall i (by omega)
    rw [Nat.zero_add, hnl, if_neg Bool.false_ne_true] at hval
    have hlt : i < vs.length := by omega
    have hcell : vs[i] = bound pb pe k (boundary.getInt64 i).toNat := by
      rw [hval]
      by_cases hn : (boundary.getInt64 i).toNat = 0
      · rw [if_pos hn, hn, hz]
      · rw [if_neg hn, hfind _ (Nat.one_le_iff_ne_zero.2 hn)]
    rw [BoundsColumns.clampFrame_of_lt hi, BoundsColumns.store_of_ne hbeg,
      BoundsColumns.store_of_ne hend, BoundsColumns.store_self, storeCells_of_lt hlt, hcell,
      hst.unique hrow.partitionBegin, hstp.unique hrow.partitionEnd, max_eq_left (hrng _).1,
      min_eq_left (hrng _).2]
  · rintro ⟨i, hi, hnl, hneg⟩
    refine ⟨text, ?_⟩
    rw [tryCells_error (e := .outOfRange text) (n := call.count) (i := 0) ?_ ?_]
    · rfl
    · intro j _ _ _
      by_cases hj : boundary.cellIsNull j = false ∧ (boundary.getInt64 j).toInt < 0
      · exact .inr (groupsBound_of_neg hj.1 hj.2)
      · refine .inl ⟨(), _, groupsBound_of_nonneg fun hnl' => ?_⟩
        exact not_lt.1 fun h => hj ⟨hnl', h⟩
    · exact ⟨i, Nat.zero_le i, by omega, fun _ => groupsBound_of_neg hnl hneg⟩

/-! ## The frames -/

namespace InPeerGroup

variable (h : g.InPeerGroup r pb pe k)

include h

theorem groupStart_range (j : ℕ) : pb ≤ g.groupStart pb pe j ∧ g.groupStart pb pe j ≤ pe := by
  have hlt : pb ≤ pe := h.partitionBegin.le.trans h.partitionEnd.lt.le
  rw [groupStart]
  cases hj : (g.groupStarts pb pe)[j]? with
  | none => exact ⟨hlt, le_rfl⟩
  | some u =>
    obtain ⟨hl, hr, -⟩ := mem_marks.1 (mem_of_getElem? hj)
    exact ⟨hl, hr.le⟩

theorem precedingStart_range (n : ℕ) : pb ≤ g.precedingStart pb pe k n ∧ g.precedingStart pb pe k n ≤ pe := by
  rw [precedingStart]
  by_cases hlt : k < n
  · rw [if_pos hlt]
    exact ⟨le_rfl, h.partitionBegin.le.trans h.partitionEnd.lt.le⟩
  · rw [if_neg hlt]
    exact h.groupStart_range _

theorem followingStart_range (n : ℕ) : pb ≤ g.followingStart pb pe k n ∧ g.followingStart pb pe k n ≤ pe := by
  rw [followingStart]
  by_cases hlt : k + n < (g.groupStarts pb pe).length
  · rw [if_pos hlt]
    exact h.groupStart_range _
  · rw [if_neg hlt]
    exact ⟨h.partitionBegin.le.trans h.partitionEnd.lt.le, le_rfl⟩

theorem precedingEnd_range (n : ℕ) : pb ≤ g.precedingEnd pb pe k n ∧ g.precedingEnd pb pe k n ≤ pe := by
  rw [precedingEnd]
  by_cases hlt : k < n
  · rw [if_pos hlt]
    exact ⟨le_rfl, h.partitionBegin.le.trans h.partitionEnd.lt.le⟩
  · rw [if_neg hlt]
    exact h.groupStart_range _

end InPeerGroup

variable [LinearOrder V] {s : WindowBoundariesState} {b : BoundsColumns}

variable (g) in
/-- The columns that the ends of the frames are computed from: those of the rows, and the starts of the frames. -/
def BeforeFrameEnd (call : BoundsCall V) (s : WindowBoundariesState) (b b₁ : BoundsColumns) : Prop :=
  b₁ = (g.rowBounds call s b).2 ∨ .frameBegin ∈ g.required ∧ g.frameBegin call (g.rowBounds call s b).2 = .ok b₁

theorem BeforeFrameEnd.rowColumns {b₁ : BoundsColumns} (h : g.BeforeFrameEnd call s b b₁)
    (hg : g.IsGroup) (hrs : g.RowColumns call (g.rowBounds call s b).2) : g.RowColumns call b₁ := by
  rcases h with rfl | ⟨hreq, hb⟩
  · exact hrs
  · exact hrs.frameBegin hg hreq hb

variable (g) in
/-- The bounds of the frames of groups are those of the groups the offsets tell. -/
structure GroupsFramesRight (call : BoundsCall V) (s : WindowBoundariesState) (b : BoundsColumns) :
    Prop where
  beginPreceding : g.wexpr.start = .exprPrecedingGroups → .frameBegin ∈ g.required →
    g.GroupsBound call call.boundaryStart .frameBegin (g.frameBegin call (g.rowBounds call s b).2)
      g.precedingStart
  beginFollowing : g.wexpr.start = .exprFollowingGroups → .frameBegin ∈ g.required →
    g.GroupsBound call call.boundaryStart .frameBegin (g.frameBegin call (g.rowBounds call s b).2)
      g.followingStart
  endPreceding : g.wexpr.stop = .exprPrecedingGroups → .frameEnd ∈ g.required →
    ∀ b₁, g.BeforeFrameEnd call s b b₁ → g.GroupsBound call call.boundaryEnd .frameEnd
      (g.frameEnd call (g.rowBounds call s b).1 b₁) g.precedingEnd
  endFollowing : g.wexpr.stop = .exprFollowingGroups → .frameEnd ∈ g.required →
    ∀ b₁, g.BeforeFrameEnd call s b b₁ → g.GroupsBound call call.boundaryEnd .frameEnd
      (g.frameEnd call (g.rowBounds call s b).1 b₁) g.followingEnd

/-- Frames from a number of groups before the two pairs of peers to one behind them. -/
def pairFrames : WindowBoundaries ℕ := { twoPairs with
    wexpr := ⟨.aggregate, 1, [.ascending], 0, .exprPrecedingGroups, .exprFollowingGroups, .noOther⟩ }

end WindowBoundaries

end WfOpt

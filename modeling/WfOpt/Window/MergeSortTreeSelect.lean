import WfOpt.Window.MergeSortTreeAggregate

/-!
# Selecting the n-th element

`SelectNth` looks for the position before which `n` elements lie in the frames, and which has
another one. It goes down from the run that has all elements to a run of every level
(`MergeSortTree.Selected`), passing over the runs that do not have enough of them.
-/

namespace WfOpt

open List Nat Function

/-- A value lies in one of the frames. -/
def inFrames (frames : List FrameBounds) (v : ℕ) : Bool := frames.any fun f => f.contains v

theorem FrameBounds.contains_iff (f : FrameBounds) (v : ℕ) : f.contains v = true ↔ f.start ≤ v ∧ v < f.stop := by
  rw [contains, Bool.and_eq_true, decide_eq_true_eq, decide_eq_true_eq]

theorem sum_contains (frames : List FrameBounds) (v : ℕ) :
    (frames.map fun f => if f.contains v then 1 else 0).sum = frames.countP fun f => f.contains v := by
  induction frames with
  | nil => rfl
  | cons f frames ih => rw [map_cons, sum_cons, ih, countP_cons, Nat.add_comm]

/-- A value lies in one frame at most. -/
theorem SubFrames.countP_contains_le (s : SubFrames) (v : ℕ) : (s.frames.countP fun f => f.contains v) ≤ 1 := by
  have hinc := s.increasing
  generalize s.frames = frames at hinc
  induction frames with
  | nil => exact Nat.zero_le 1
  | cons f frames ih =>
    rw [pairwise_cons] at hinc
    rw [countP_cons]
    by_cases hf : f.contains v = true
    · -- The frames behind start after the value.
      have hno : (frames.countP fun g => g.contains v) = 0 := by
        rw [countP_eq_zero]
        intro g hg hv
        have hle := hinc.1 g hg
        rw [FrameBounds.contains_iff] at hf hv
        omega
      rw [hno, if_pos hf]
    · rw [if_neg hf]
      exact ih hinc.2

/-- Frames that have no value in common, whatever their order. -/
structure DisjointFrames where
  frames : List FrameBounds
  start_le : ∀ f ∈ frames, f.start ≤ f.stop
  countP_le : ∀ v, (frames.countP fun f => f.contains v) ≤ 1

def SubFrames.toDisjoint (s : SubFrames) : DisjointFrames := ⟨s.frames, s.start_le, s.countP_contains_le⟩

namespace DisjointFrames

variable (s : DisjointFrames)

theorem countP_contains (v : ℕ) :
    (s.frames.countP fun f => f.contains v) = if inFrames s.frames v then 1 else 0 := by
  have hle := s.countP_le v
  split_ifs with hin
  · have hpos : 0 < s.frames.countP fun f => f.contains v := by
      rw [countP_pos_iff]
      exact any_eq_true.1 hin
    omega
  · rw [countP_eq_zero]
    exact fun f hf hv => hin (any_eq_true.2 ⟨f, hf, hv⟩)

/-- The elements found in a run are those that lie in the frames. -/
theorem matched_eq (leaves : ℕ → ℕ) (a m : ℕ) :
    (s.frames.map fun f => countLt leaves a (a + m) f.stop - countLt leaves a (a + m) f.start).sum =
      Nat.count (fun i => inFrames s.frames (leaves (a + i)) = true) m := by
  induction m with
  | zero =>
    rw [count_zero, sum_eq_zero]
    intro c hc
    obtain ⟨f, -, rfl⟩ := mem_map.1 hc
    rw [Nat.add_zero, countLt_self, countLt_self, Nat.sub_self]
  | succ m ih =>
    have hfrm : ∀ f ∈ s.frames, countLt leaves a (a + (m + 1)) f.stop -
        countLt leaves a (a + (m + 1)) f.start =
        (countLt leaves a (a + m) f.stop - countLt leaves a (a + m) f.start) +
          if f.contains (leaves (a + m)) then 1 else 0 := by
      intro f hf
      have hle : countLt leaves a (a + m) f.start ≤ countLt leaves a (a + m) f.stop :=
        count_mono_left fun i _ hi => hi.trans_le (s.start_le f hf)
      have hst := s.start_le f hf
      have hspl : ∀ x, countLt leaves a (a + (m + 1)) x =
          countLt leaves a (a + m) x + if leaves (a + m) < x then 1 else 0 := by
        intro x
        rw [← countLt_succ]
        exact (countLt_add (Nat.le_add_right a m) (Nat.le_add_right _ 1)).symm
      simp only [hspl, FrameBounds.contains_iff]
      split_ifs
      all_goals omega
    rw [map_congr_left hfrm, sum_map_add, ih, count_succ, ← s.countP_contains, sum_contains]

end DisjointFrames

namespace MergeSortTree

variable {t : MergeSortTree ℕ} {leaves : ℕ → ℕ} {s : DisjointFrames} {level run n : ℕ}

/-- How many of the elements before a position lie in the frames. -/
def framedBefore (leaves : ℕ → ℕ) (s : DisjointFrames) (i : ℕ) : ℕ :=
  Nat.count (fun i => inFrames s.frames (leaves i) = true) i

theorem framedBefore_mono (leaves : ℕ → ℕ) (s : DisjointFrames) {i j : ℕ} (h : i ≤ j) :
    framedBefore leaves s i ≤ framedBefore leaves s j :=
  count_monotone _ h

theorem matched_eq_framedBefore {a b : ℕ} (hab : a ≤ b) :
    (s.frames.map fun f => countLt leaves a b f.stop - countLt leaves a b f.start).sum =
      framedBefore leaves s b - framedBefore leaves s a := by
  obtain ⟨m, rfl⟩ := Nat.exists_eq_add_of_le hab
  rw [s.matched_eq, framedBefore, framedBefore, count_add, Nat.add_sub_cancel_left]

/-- The one after `target` elements in the frames is the one after `n` such elements in a run. -/
structure Selected (t : MergeSortTree ℕ) (leaves : ℕ → ℕ) (s : DisjointFrames)
    (target level run n : ℕ) : Prop where
  before : framedBefore leaves s (runBegin t.count level run) + n = target
  inside : target < framedBefore leaves s (runEnd t.count level run)

variable {target : ℕ}

theorem Selected.lt_count (h : t.Selected leaves s target level run n) : run * levelWidth level < t.count := by
  by_contra hge
  have hend : runEnd t.count level run ≤ runBegin t.count level run := by
    rw [runBegin, Nat.min_eq_right (not_lt.1 hge)]
    exact runEnd_le _ _ _
  have hmono := framedBefore_mono leaves s hend
  have hbef := h.before
  have hinsi := h.inside
  omega

/-! ## Levels with cascading pointers -/

/-- The pointers for the run `k` of those a run is merged from. -/
def framePointers (t : MergeSortTree ℕ) (leaves : ℕ → ℕ) (s : DisjointFrames) (level run k : ℕ) : List (ℕ × ℕ) :=
  s.frames.map fun f =>
    (cascadeIdx level run (t.place leaves f.start level run / cascading) + k,
      cascadeIdx level run (t.place leaves f.stop level run / cascading) + k)

section

variable (h : t.Built leaves)

include h

theorem cascadeMatches_eq (hpos : 1 ≤ level) (hlev : level + 1 < t.size)
    (hrun : run * levelWidth (level + 1) < t.count) {k : ℕ} (hk : k < fanout) :
    t.cascadeMatches s.frames level (t.framePointers leaves s (level + 1) run k) = s.frames.map fun f =>
        (runBegin t.count level (fanout * run + k) + t.place leaves f.start level (fanout * run + k),
          runBegin t.count level (fanout * run + k) + t.place leaves f.stop level (fanout * run + k)) := by
  rw [cascadeMatches, framePointers, zipWith_map_right, zipWith_self]
  refine map_congr_left fun f _ => ?_
  rw [h.searchCascade_eq hpos hlev run hrun hk, h.searchCascade_eq hpos hlev run hrun hk]

omit h in
/-- What is found in a run are its elements in the frames. -/
theorem matchedCount_eq (t : MergeSortTree ℕ) (leaves : ℕ → ℕ) (s : DisjointFrames) (level run b : ℕ) :
    matchedCount (s.frames.map fun f =>
        (b + t.place leaves f.start level run, b + t.place leaves f.stop level run)) =
      framedBefore leaves s (runEnd t.count level run) -
        framedBefore leaves s (runBegin t.count level run) := by
  rw [matchedCount, map_map, ← matched_eq_framedBefore (runBegin_le_runEnd _ _ _)]
  refine congrArg sum (map_congr_left fun f _ => ?_)
  rw [comp_apply, Nat.add_sub_add_left, place, place]

omit h in
/-- A run that has enough elements is the run of the element asked for; otherwise it is in the
    runs behind. -/
theorem selected_or_next (hn : framedBefore leaves s (runBegin t.count level run) + n = target)
    {matched : ℕ} (hmatd : matched = framedBefore leaves s (runEnd t.count level run) -
      framedBefore leaves s (runBegin t.count level run)) :
    (n < matched → t.Selected leaves s target level run n) ∧
      (¬n < matched → framedBefore leaves s (runBegin t.count level (run + 1)) + (n - matched) = target) := by
  have hmono := framedBefore_mono leaves s (runBegin_le_runEnd t.count level run)
  refine ⟨fun hlt => ⟨hn, by omega⟩, fun hge => ?_⟩
  change framedBefore leaves s (runEnd t.count level run) + (n - matched) = target
  omega

omit h in
/-- The element asked for is not behind the last of the runs a run is merged from. -/
theorem lt_fanout_of_inside {k : ℕ} (hinsi : target < framedBefore leaves s (runEnd t.count (level + 1) run))
    (hn : framedBefore leaves s (runBegin t.count level (fanout * run + k)) + n = target) :
    k < fanout := by
  by_contra hge
  have hend : runEnd t.count (level + 1) run ≤ runBegin t.count level (fanout * run + k) := by
    rw [← runBegin_child_end]
    exact runBegin_mono (by omega)
  have := framedBefore_mono leaves s hend
  omega

theorem selectChild_spec (hlev : level + 2 < t.size)
    (hinsi : target < framedBefore leaves s (runEnd t.count (level + 2) run))
    (hrun : run * levelWidth (level + 2) < t.count) {fuel k : ℕ} (hfuel : fanout ≤ fuel + k)
    (hn : framedBefore leaves s (runBegin t.count (level + 1) (fanout * run + k)) + n = target) :
    let r := t.selectChild s.frames (level + 1) fuel (fanout * run + k) n
      (t.framePointers leaves s (level + 2) run k)
    t.Selected leaves s target (level + 1) r.1 r.2.1 ∧ r.2.2 = t.framePointers leaves s (level + 1) r.1 0 := by
  induction fuel generalizing k n with
  | zero =>
    have hk := lt_fanout_of_inside hinsi hn
    omega
  | succ fuel ih =>
    have hk := lt_fanout_of_inside hinsi hn
    have hfnd := cascadeMatches_eq (s := s) h (Nat.le_add_left 1 level) hlev hrun hk
    have hmatd := matchedCount_eq t leaves s (level + 1) (fanout * run + k)
      (runBegin t.count (level + 1) (fanout * run + k))
    obtain ⟨hselected, hnx⟩ := selected_or_next hn hmatd
    rw [selectChild]
    simp only [hfnd]
    split_ifs with hlt
    · refine ⟨hselected hlt, ?_⟩
      have hbeg := runBegin_of_le (hselected hlt).lt_count.le
      simp only [hbeg, map_map]
      refine map_congr_left fun f _ => ?_
      rw [comp_apply, cascade_of_place, cascade_of_place]
      rfl
    · have hn' := hnx hlt
      have hptrs : (t.framePointers leaves s (level + 2) run k).map
          (fun c => (c.1 + 1, c.2 + 1)) = t.framePointers leaves s (level + 2) run (k + 1) := by
        rw [framePointers, framePointers, map_map]
        rfl
      rw [hptrs, Nat.add_assoc]
      exact ih (by omega) hn'

omit h in
/-- The first of the runs a run is merged from starts where it does. -/
theorem Selected.child (h : t.Selected leaves s target (level + 1) run n) :
    framedBefore leaves s (runBegin t.count level (fanout * run)) + n = target := by
  rw [runBegin_child]
  exact h.before

/-- All levels with cascading pointers are passed, down to level 2. -/
theorem selectCascaded_spec (hlev : level + 2 < t.size) (hs : t.Selected leaves s target (level + 2) run n) :
    let r := t.selectCascaded s.frames (level + 1) (fanout * run) n
      (t.framePointers leaves s (level + 2) run 0)
    ∃ run' level', r.1 = level' ∧ r.2.1 = fanout * run' ∧ level' < t.size - 1 ∧
      t.Selected leaves s target (level' + 1) run' r.2.2 := by
  induction level generalizing run n with
  | zero =>
    rw [selectCascaded, lowestCascadingLevel_eq, if_neg (by decide)]
    exact ⟨run, 1, rfl, rfl, by omega, hs⟩
  | succ level ih =>
    rw [selectCascaded, lowestCascadingLevel_eq, if_pos (by omega)]
    obtain ⟨hch, hptrs⟩ := selectChild_spec h hlev hs.inside hs.lt_count
      (k := 0) (show fanout ≤ fanout + 0 from le_rfl) hs.child
    simp only [Nat.add_zero] at hch hptrs
    simp only
    rw [hptrs, Nat.mul_comm _ fanout]
    exact ih (by omega) hch

/-! ## Levels without cascading pointers -/

/-- What is found in a whole run are its elements in the frames. -/
theorem Built.matchedCount_run (hlev : level < t.size) (run : ℕ) :
    matchedCount (t.runMatches s.frames level (runBegin t.count level run) (runEnd t.count level run)) =
      framedBefore leaves s (runEnd t.count level run) -
        framedBefore leaves s (runBegin t.count level run) := by
  rw [← matchedCount_eq t leaves s level run (runBegin t.count level run)]
  refine congrArg matchedCount (map_congr_left fun f hf => ?_)
  have hsort := h.runSorted hlev run
  have hle : t.place leaves f.start level run ≤ t.place leaves f.stop level run :=
    count_mono_left fun i _ hi => hi.trans_le (s.start_le f hf)
  have hend := countLt_le leaves (runBegin t.count level run) (runEnd t.count level run) f.stop
  have hbe := runBegin_le_runEnd t.count level run
  simp only [h.lowerBound_run hlev run]
  -- The search for the end of the frame starts at its start.
  have hstp := lowerBound_eq (x := f.stop) hsort.mono
    (Nat.le_add_right _ (t.place leaves f.start level run))
    (by rw [hsort.countLt_eq, ← place]; omega) (by rw [hsort.countLt_eq]; omega) le_rfl
  rw [hstp, hsort.countLt_eq, place, place]

theorem Built.matchedCount_range (hlev : level < t.size) {rangeBegin : ℕ}
    (hbeg : rangeBegin = run * levelWidth level) (hlt : rangeBegin + levelWidth level < t.count) :
    matchedCount (t.runMatches s.frames level rangeBegin (rangeBegin + levelWidth level)) =
      framedBefore leaves s (runEnd t.count level run) -
        framedBefore leaves s (runBegin t.count level run) := by
  have hbeg' : runBegin t.count level run = rangeBegin := by
    rw [runBegin, ← hbeg, Nat.min_eq_left (by omega)]
  have hend : runEnd t.count level run = rangeBegin + levelWidth level := by
    rw [runEnd, runBegin, succ_mul, ← hbeg, Nat.min_eq_left hlt.le]
  have hmatd := h.matchedCount_run (s := s) hlev run
  rwa [hbeg', hend] at hmatd ⊢

theorem selectRun_spec (hlev : level + 1 < t.size) {run' : ℕ}
    (hinsi : target < framedBefore leaves s (runEnd t.count (level + 1) run'))
    {rangeBegin : ℕ} (hbeg : rangeBegin = run * levelWidth level)
    (hn : framedBefore leaves s (runBegin t.count level run) + n = target) :
    let r := t.selectRun s.frames level rangeBegin run n
    t.Selected leaves s target level r.1 r.2 := by
  induction rangeBegin, run, n using selectRun.induct t s.frames level with
  | case1 rangeBegin run n hlt matched hfnd =>
    rw [selectRun, if_pos hlt, if_pos hfnd]
    exact (selected_or_next hn (h.matchedCount_range (lt_of_succ_lt hlev) hbeg hlt)).1 hfnd
  | case2 rangeBegin run n hlt matched hfnd ih =>
    rw [selectRun, if_pos hlt, if_neg hfnd]
    refine ih (by rw [hbeg, succ_mul]) ?_
    exact (selected_or_next hn (h.matchedCount_range (lt_of_succ_lt hlev) hbeg hlt)).2 hfnd
  | case3 rangeBegin run n hlt =>
    -- The last run has what is left.
    rw [selectRun, if_neg hlt]
    have hall : runEnd t.count level run = t.count := by
      rw [runEnd, runBegin, succ_mul, ← hbeg, Nat.min_eq_right (not_lt.1 hlt)]
    exact ⟨hn, hinsi.trans_le (framedBefore_mono leaves s ((runEnd_le _ _ _).trans hall.ge))⟩

/-- All levels but the last one are passed. -/
theorem selectPlain_spec (hlev : level + 1 < t.size) (hs : t.Selected leaves s target (level + 1) run n) :
    let r := t.selectPlain s.frames level (fanout * run) n
    ∃ run', r.1 = fanout * run' ∧ t.Selected leaves s target 1 run' r.2 := by
  induction level generalizing run n with
  | zero => exact ⟨run, rfl, hs⟩
  | succ level ih =>
    have hrun := selectRun_spec h hlev hs.inside rfl hs.child
    rw [selectPlain, Nat.mul_comm _ fanout]
    exact ih (by omega) hrun

/-! ## The last level -/

theorem scanLeaves_spec {limit i : ℕ} (hlimit : limit ≤ t.count)
    (hinsi : target < framedBefore leaves s limit) (hn : framedBefore leaves s i + n = target) :
    let r := t.scanLeaves s.frames limit i (n + 1)
    r.2 = 0 ∧ r.1 < t.count ∧ inFrames s.frames (leaves r.1) = true ∧ framedBefore leaves s r.1 = target := by
  obtain ⟨m, hm⟩ : ∃ m, m = limit - i := ⟨_, rfl⟩
  induction m generalizing i n with
  | zero =>
    have := framedBefore_mono leaves s (show limit ≤ i by omega)
    omega
  | succ m ih =>
    have hlt : i < limit := by omega
    have hsucc : framedBefore leaves s (i + 1) =
        framedBefore leaves s i + if inFrames s.frames (leaves i) then 1 else 0 :=
      count_succ _ _
    rw [scanLeaves, if_pos hlt, h.lowest i (by omega), s.countP_contains]
    by_cases hin : inFrames s.frames (leaves i) = true
    · simp only [if_pos hin] at hsucc ⊢
      split_ifs with hz
      · have hbef : framedBefore leaves s i = target := by omega
        exact ⟨hz, by omega, hin, hbef⟩
      · -- One of the elements before the one asked for.
        obtain ⟨n, rfl⟩ := exists_eq_succ_of_ne_zero hz
        exact ih (by omega) (by omega)
    · simp only [if_neg hin] at hsucc ⊢
      exact ih (by omega) (by omega)

/-- The element asked for is in the run that has all elements. -/
theorem Built.selected_top (hn : n < framedBefore leaves s t.count) : t.Selected leaves s n (t.size - 1) 0 n := by
  constructor
  · rw [runBegin, Nat.zero_mul, Nat.zero_min]
    exact Nat.zero_add n
  · rwa [runEnd, runBegin, Nat.zero_add, Nat.one_mul, Nat.min_eq_right h.count_le]

/-- `SelectNth` finds the element after `n` others in the frames. -/
theorem Built.selectNth_spec (hn : n < framedBefore leaves s t.count) :
    let r := t.selectNth s.frames n
    r.2 = 0 ∧ r.1 < t.count ∧ inFrames s.frames (leaves r.1) = true ∧ framedBefore leaves s r.1 = n := by
  have htop := h.selected_top hn
  -- From any level, the rest is found without cascading pointers.
  have hfinish : ∀ level run m, level + 1 < t.size → t.Selected leaves s n (level + 1) run m →
      let r := t.selectPlain s.frames level (fanout * run) m
      let r := t.scanLeaves s.frames (min (r.1 + fanout) t.count) r.1 (r.2 + 1)
      r.2 = 0 ∧ r.1 < t.count ∧ inFrames s.frames (leaves r.1) = true ∧ framedBefore leaves s r.1 = n := by
    intro level run m hlev hs
    obtain ⟨run', hrun', hs'⟩ := selectPlain_spec h hlev hs
    have hend : min (fanout * run' + fanout) t.count = runEnd t.count 1 run' := by
      rw [runEnd, runBegin, levelWidth_succ, levelWidth_zero, Nat.mul_one, succ_mul, Nat.mul_comm]
    have hbeg : runBegin t.count 1 run' = fanout * run' := by
      rw [runBegin_of_le hs'.lt_count.le, levelWidth_succ, levelWidth_zero, Nat.mul_one, Nat.mul_comm]
    simp only [hrun', hend]
    exact scanLeaves_spec h (runEnd_le _ _ _) hs'.inside (hbeg ▸ hs'.before)
  rw [selectNth]
  by_cases hsz : t.size < 2
  · -- A single element.
    have hcnt := h.count_le
    rw [show t.size - 1 = 0 by omega, levelWidth_zero] at hcnt
    have hpos : t.count ≠ 0 := by
      intro h0
      rw [h0] at hn
      exact Nat.not_lt_zero n hn
    rw [show t.count = 1 by omega, framedBefore, count_succ, count_zero] at hn
    rw [if_pos hsz]
    split_ifs at hn with hin
    · exact ⟨rfl, Nat.pos_of_ne_zero hpos, hin, (lt_one_iff.1 hn).symm⟩
    · omega
  obtain ⟨level, hlev⟩ : ∃ level, t.size = level + 2 := Nat.exists_eq_add_of_le' (not_lt.1 hsz)
  rw [hlev] at htop
  simp only [hlev, Nat.add_sub_cancel]
  by_cases hcasc : lowestCascadingLevel < level
  · rw [if_pos hcasc]
    obtain ⟨level, rfl⟩ := Nat.exists_eq_add_of_le' (one_le_of_lt hcasc)
    have hptrs : (s.frames.map fun f =>
        (lowerBound (t.elements (level + 1 + 1)) 0 t.count f.start / cascading * fanout,
          lowerBound (t.elements (level + 1 + 1)) 0 t.count f.stop / cascading * fanout)) =
        t.framePointers leaves s (level + 1 + 1) 0 0 := by
      refine map_congr_left fun f _ => ?_
      have hrun : ∀ x, lowerBound (t.elements (level + 1 + 1)) 0 t.count x / cascading * fanout =
          cascadeIdx (level + 1 + 1) 0 (t.place leaves x (level + 1 + 1) 0 / cascading) := by
        intro x
        have hsrch := h.lowerBound_run (x := x) (show level + 1 + 1 < t.size by omega) 0
        have htot : t.count ≤ levelWidth (level + 1 + 1) := by
          have hle := h.count_le
          rwa [hlev] at hle
        rw [runEnd, runBegin, runBegin, Nat.zero_mul, Nat.zero_min, Nat.zero_add, Nat.zero_add,
          Nat.one_mul, Nat.min_eq_right htot] at hsrch
        rw [hsrch, cascadeIdx, Nat.zero_mul, Nat.zero_add, Nat.mul_comm]
      rw [hrun, hrun]
      rfl
    obtain ⟨run', level', hl, hr, hlt, hs'⟩ := selectCascaded_spec h (by omega) htop
    rw [hptrs]
    simp only [Nat.mul_zero] at hl hr hs'
    rw [hl, hr]
    exact hfinish level' run' _ (by omega) hs'
  · rw [if_neg hcasc]
    exact hfinish level 0 n (by omega) htop

/-! ## Missing elements -/

end

section Missing

variable {frames : List FrameBounds} {total : ℕ → ℕ}

/-- How many elements before a position are found in the frames, in the last level and in the runs of the others. -/
structure Finds (t : MergeSortTree ℕ) (frames : List FrameBounds) (total : ℕ → ℕ) : Prop where
  zero : total 0 = 0
  leaf : ∀ i < t.count, total (i + 1) = total i + frames.countP fun f => f.contains (t.elements 0 i)
  range : ∀ level < t.size, ∀ run, run * levelWidth level + levelWidth level < t.count →
    matchedCount (t.runMatches frames level (run * levelWidth level) (run * levelWidth level + levelWidth level)) =
      total (run * levelWidth level + levelWidth level) - total (run * levelWidth level)

theorem Finds.mono (h : t.Finds frames total) {i j : ℕ} (hij : i ≤ j) (hj : j ≤ t.count) : total i ≤ total j := by
  induction j, hij using le_induction with
  | base => exact le_rfl
  | succ j _ ih => exact (ih (le_of_succ_le hj)).trans (by rw [h.leaf j hj]; exact Nat.le_add_right _ _)

/-- The scan goes to its end, if there are not enough elements. -/
theorem Finds.scanLeaves_missed (h : t.Finds frames total) {i : ℕ} (hi : i ≤ t.count)
    (hn : total t.count < total i + n) :
    t.scanLeaves frames t.count i n = (t.count, total i + n - total t.count) := by
  obtain ⟨m, hm⟩ : ∃ m, m = t.count - i := ⟨_, rfl⟩
  induction m generalizing i n with
  | zero =>
    obtain rfl : i = t.count := by omega
    rw [scanLeaves, if_neg (lt_irrefl _), Nat.add_sub_cancel_left]
  | succ m ih =>
    have hlt : i < t.count := by omega
    have hlf := h.leaf i hlt
    have hmono : total (i + 1) ≤ total t.count := h.mono hlt le_rfl
    have hz : n - (frames.countP fun f => f.contains (t.elements 0 i)) ≠ 0 := by omega
    rw [scanLeaves, if_pos hlt]
    rw [if_neg hz, ih (show i + 1 ≤ t.count from hlt) (by omega) (by omega), hlf]
    refine congrArg (Prod.mk t.count) ?_
    omega

/-- The last of the runs is reached. -/
theorem Finds.selectRun_missed (h : t.Finds frames total) (hlev : level < t.size) {rangeBegin : ℕ}
    (hbeg : rangeBegin = run * levelWidth level) (hlt : rangeBegin < t.count)
    (hn : total t.count ≤ total rangeBegin + n) :
    let r := t.selectRun frames level rangeBegin run n
    r.1 * levelWidth level < t.count ∧ t.count ≤ r.1 * levelWidth level + levelWidth level ∧
      total (r.1 * levelWidth level) + r.2 = total rangeBegin + n := by
  induction rangeBegin, run, n using selectRun.induct t frames level with
  | case1 rangeBegin run n hnx matched hfnd =>
    have hmatd := h.range level hlev run (hbeg ▸ hnx)
    rw [← hbeg] at hmatd
    have hmono := h.mono hnx.le le_rfl
    omega
  | case2 rangeBegin run n hnx matched hfnd ih =>
    have hmatd := h.range level hlev run (hbeg ▸ hnx)
    rw [← hbeg] at hmatd
    have hmono := h.mono (Nat.le_add_right rangeBegin (levelWidth level)) hnx.le
    have hsum : total (rangeBegin + levelWidth level) + (n - matched) = total rangeBegin + n := by omega
    rw [selectRun, if_pos hnx, if_neg hfnd, ← hsum]
    exact ih (by rw [hbeg, succ_mul]) hnx (hsum ▸ hn)
  | case3 rangeBegin run n hnx =>
    rw [selectRun, if_neg hnx]
    dsimp only
    rw [← hbeg]
    exact ⟨hlt, not_lt.1 hnx, rfl⟩

theorem Finds.selectPlain_missed (h : t.Finds frames total) (hlev : level < t.size) {result : ℕ}
    (hlt : result * levelWidth level < t.count) (hle : t.count ≤ result * levelWidth level + levelWidth (level + 1))
    (hn : total t.count ≤ total (result * levelWidth level) + n) :
    let r := t.selectPlain frames level result n
    r.1 < t.count ∧ t.count ≤ r.1 + fanout ∧ total r.1 + r.2 = total (result * levelWidth level) + n := by
  induction level generalizing result n with
  | zero =>
    rw [levelWidth_zero] at *
    rw [Nat.mul_one] at *
    exact ⟨hlt, hle, rfl⟩
  | succ level ih =>
    obtain ⟨hlt', hle', hsum⟩ := h.selectRun_missed hlev rfl hlt hn
    rw [selectPlain]
    generalize t.selectRun frames (level + 1) (result * levelWidth (level + 1)) result n = r at hlt' hle' hsum ⊢
    have hwid : r.1 * levelWidth (level + 1) = r.1 * fanout * levelWidth level := by
      rw [levelWidth_succ, Nat.mul_assoc]
    rw [← hsum] at hn ⊢
    rw [hwid] at hlt' hle' hn ⊢
    exact ih (lt_of_succ_lt hlev) hlt' hle' hn

/-- Without cascading pointers, what remains is the number of elements that are missing. -/
theorem Finds.selectNth_missed (h : t.Finds frames total) (hlow : 2 ≤ t.size) (hhigh : t.size ≤ 4)
    (hpos : 0 < t.count) (hle : t.count ≤ levelWidth (t.size - 1)) (hn : total t.count ≤ n) :
    t.selectNth frames n = (t.count, n + 1 - total t.count) := by
  rw [selectNth, if_neg (by omega)]
  dsimp only
  rw [if_neg (by rw [lowestCascadingLevel_eq]; omega)]
  have hsz : t.size - 2 + 1 = t.size - 1 := by omega
  have hlev : t.size - 2 < t.size := by omega
  have hfst : 0 * levelWidth (t.size - 2) < t.count := by rwa [Nat.zero_mul]
  have hlst : t.count ≤ 0 * levelWidth (t.size - 2) + levelWidth (t.size - 2 + 1) := by
    rwa [Nat.zero_mul, Nat.zero_add, hsz]
  have hno : total t.count ≤ total (0 * levelWidth (t.size - 2)) + n := hn.trans (Nat.le_add_left _ _)
  obtain ⟨hlt, hend, hsum⟩ := h.selectPlain_missed hlev hfst hlst hno
  rw [Nat.zero_mul, h.zero] at hsum
  dsimp only
  rw [Nat.min_eq_right hend, h.scanLeaves_missed hlt.le (by omega)]
  refine congrArg (Prod.mk t.count) ?_
  omega

end Missing

theorem Built.finds (h : t.Built leaves) (s : DisjointFrames) : t.Finds s.frames (framedBefore leaves s) where
  zero := count_zero _
  leaf i hi := by rw [h.lowest i hi, s.countP_contains, framedBefore, count_succ, framedBefore]
  range level hlev run hlt := by
    have hbeg : runBegin t.count level run = run * levelWidth level := by
      rw [runBegin, Nat.min_eq_left (by omega)]
    have hend : runEnd t.count level run = run * levelWidth level + levelWidth level := by
      rw [runEnd, runBegin, succ_mul, Nat.min_eq_left hlt.le]
    rw [h.matchedCount_range hlev rfl hlt, hbeg, hend]

/-- A search does not end at an element below `x`. -/
theorem lowerBound_not_lt {E : Type*} [LinearOrder E] {data : ℕ → E} {first last : ℕ} {x : E}
    (h : lowerBound data first last x < last) : ¬data (lowerBound data first last x) < x := by
  fun_induction lowerBound data first last x with
  | case1 first _ ih => exact ih h
  | case2 first hnot => exact fun hx => hnot ⟨h, hx⟩

/-- A tree of up to `32 ^ 3` elements has at most one level above those without cascading pointers. -/
theorem levelsAbove_le {count : ℕ} (h : count ≤ levelWidth 3) : levelsAbove count 1 ≤ 3 := by
  have hwid : levelWidth 3 = 1 * fanout * fanout * fanout := by decide
  rw [levelsAbove]
  split_ifs
  · rw [levelsAbove]
    split_ifs
    · rw [levelsAbove]
      split_ifs
      · rw [levelsAbove, if_neg (by omega)]
      · decide
    · decide
  · exact Nat.zero_le 3

/-- Nothing is found in a frame that ends before it starts. -/
theorem finds_reversed (t : MergeSortTree ℕ) {f : FrameBounds} (hf : f.stop < f.start) : t.Finds [f] fun _ => 0 where
  zero := rfl
  leaf i _ := by
    rw [countP_singleton, if_neg]
    rw [FrameBounds.contains_iff]
    omega
  range level _ run _ := by
    rw [runMatches, map_singleton, matchedCount, map_singleton, sum_singleton]
    dsimp only
    generalize hb : run * levelWidth level + levelWidth level = rangeEnd
    generalize hl : lowerBound (t.elements level) (run * levelWidth level) rangeEnd f.start = lowerMatch
    -- The search for its end stops where its start has been found.
    have hstp : lowerBound (t.elements level) lowerMatch rangeEnd f.stop = lowerMatch := by
      rw [lowerBound, if_neg]
      rintro ⟨hlt, hlow⟩
      rw [← hl] at hlt hlow
      exact lowerBound_not_lt hlt (hlow.trans hf)
    rw [hstp, Nat.sub_self]

theorem framedBefore_getD (elements : List ℕ) (s : DisjointFrames) {i : ℕ} (hi : i ≤ elements.length) :
    framedBefore (fun i => elements.getD i default) s i = (elements.take i).countP (inFrames s.frames) := by
  induction i with
  | zero => rfl
  | succ i ih =>
    have hget : elements.getD i default = elements[i] := by
      rw [getD_eq_getElem?_getD, getElem?_eq_getElem hi, Option.getD_some]
    rw [take_add_one, countP_append, ← ih (le_of_succ_le hi),
      getElem?_eq_getElem hi, framedBefore, count_succ, hget, Option.toList_some,
      countP_singleton]
    rfl

/-- `SelectNth` on a tree that is built finds the `n`-th of the elements that lie in the frames. -/
theorem selectNth_found (elements : List ℕ) (s : DisjointFrames) {n : ℕ}
    (hn : n < elements.countP (inFrames s.frames)) :
    ∃ pos, ∃ hpos : pos < elements.length, (build elements).selectNth s.frames n = (pos, 0) ∧
        inFrames s.frames elements[pos] = true ∧
        (elements.take pos).countP (inFrames s.frames) = n := by
  obtain ⟨hbt, hcnt⟩ := build_built elements
  have hn' : n < framedBefore (fun i => elements.getD i default) s (build elements).count := by
    rw [hcnt, framedBefore_getD elements s le_rfl, take_length]
    exact hn
  obtain ⟨hz, hpos, hin, hbef⟩ := hbt.selectNth_spec hn'
  rw [hcnt] at hpos
  refine ⟨_, hpos, Prod.ext rfl hz, ?_, ?_⟩
  · rwa [getD_eq_getElem?_getD, getElem?_eq_getElem hpos, Option.getD_some] at hin
  · rw [← framedBefore_getD elements s hpos.le]
    exact hbef

/-- `SelectNth` on a small tree without enough elements in the frames returns its end and how many are missing. -/
theorem selectNth_missed (elements : List ℕ) (hlow : 2 ≤ elements.length) (hhigh : elements.length ≤ levelWidth 3)
    {frames : List FrameBounds} {total : ℕ → ℕ} (h : (build elements).Finds frames total) {n : ℕ}
    (hn : total elements.length ≤ n) :
    (build elements).selectNth frames n = (elements.length, n + 1 - total elements.length) := by
  obtain ⟨hbt, hcnt⟩ := build_built elements
  have hsz := hbt.size_eq
  have hle := hbt.count_le
  have hlevels := levelsAbove_le hhigh
  rw [hcnt] at hsz hle
  rw [← hcnt] at hn ⊢
  refine h.selectNth_missed ?_ (by omega) (by omega) (by rwa [hcnt]) hn
  rw [hsz, levelsAbove, if_pos ⟨Nat.one_pos, hlow⟩]
  exact Nat.le_add_left _ _

/-- `SelectNth` returns the position of the `n`-th of the elements in the frames, with nothing remaining. -/
theorem selectNth_finds (elements : List ℕ) (s : SubFrames) {n : ℕ} (hn : n < elements.countP (inFrames s.frames)) :
    ∃ pos, ∃ hpos : pos < elements.length, (build elements).selectNth s.frames n = (pos, 0) ∧
        inFrames s.frames elements[pos] = true ∧
        (elements.take pos).countP (inFrames s.frames) = n :=
  selectNth_found elements s.toDisjoint hn

theorem selectNth_finds_two_frames : ∃ pos, ∃ hpos : pos < [4, 2, 0, 3, 1].length,
      (build [4, 2, 0, 3, 1]).selectNth [⟨0, 1⟩, ⟨3, 5⟩] 1 = (pos, 0) ∧
        inFrames [⟨0, 1⟩, ⟨3, 5⟩] ([4, 2, 0, 3, 1].get ⟨pos, hpos⟩) = true ∧
        ([4, 2, 0, 3, 1].take pos).countP (inFrames [⟨0, 1⟩, ⟨3, 5⟩]) = 1 :=
  selectNth_finds [4, 2, 0, 3, 1]
    ⟨[⟨0, 1⟩, ⟨3, 5⟩], by decide, by decide, by decide⟩ (by decide)

end MergeSortTree

end WfOpt

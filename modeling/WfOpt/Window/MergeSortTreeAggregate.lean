import WfOpt.Window.MergeSortTreeBuild

/-!
# Counting below a value

`AggregateLowerBound` covers the positions from `lower` to `upper` by runs of the tree. It starts
at a boundary in between, from where it goes down the levels on both sides. On its way, the
cascading pointers it holds are those of the run above that has the rest of a side
(`MergeSortTree.LeftAt` and `MergeSortTree.RightAt`), so that every search finds the place of the
value in a run.
-/

namespace WfOpt

open List Nat

namespace MergeSortTree

variable {E : Type*} [LinearOrder E] {t : MergeSortTree E} {leaves : ℕ → E} {x : E}
  {level run lower upper : ℕ}

/-! ## Searches -/

/-- How many elements of a run are below `x`. -/
def place (t : MergeSortTree E) (leaves : ℕ → E) (x : E) (level run : ℕ) : ℕ :=
  countLt leaves (runBegin t.count level run) (runEnd t.count level run) x

theorem Built.runSorted (h : t.Built leaves) (hlev : level < t.size) (run : ℕ) : t.RunSorted leaves level run := by
  rcases Nat.lt_or_ge (run * levelWidth level) t.count with hlt | hge
  · exact (h.runs level hlev run hlt).toRunSorted
  · exact .of_le hge

theorem Built.searchCascade_eq (h : t.Built leaves) (hpos : 1 ≤ level) (hlev : level + 1 < t.size)
    (run : ℕ) (hrun : run * levelWidth (level + 1) < t.count) {k : ℕ} (hk : k < fanout) :
    t.searchCascade level x
        (cascadeIdx (level + 1) run (t.place leaves x (level + 1) run / cascading) + k) =
      runBegin t.count level (fanout * run + k) + t.place leaves x level (fanout * run + k) := by
  have hsort := h.runSorted (lt_of_succ_lt hlev) (fanout * run + k)
  obtain ⟨h₁, h₂, h₃, h₄⟩ := (h.runs _ hlev run hrun).cascade (by omega) x k hk
  rw [Nat.add_sub_cancel] at h₁ h₂ h₃ h₄
  rw [← hsort.countLt_eq x] at h₂ h₃
  rw [place, place, ← hsort.countLt_eq x, searchCascade, Nat.add_right_comm, ← cascadeIdx_succ]
  exact lowerBound_eq hsort.mono h₁ h₂ h₃ h₄

theorem Built.lowerBound_run (h : t.Built leaves) (hlev : level < t.size) (run : ℕ) :
    lowerBound (t.elements level) (runBegin t.count level run) (runEnd t.count level run) x =
      runBegin t.count level run + t.place leaves x level run := by
  have hsort := h.runSorted hlev run
  have hle := countLt_le (t.elements level) (runBegin t.count level run)
    (runEnd t.count level run) x
  have hbe := runBegin_le_runEnd t.count level run
  rw [place, ← hsort.countLt_eq x]
  exact lowerBound_eq hsort.mono le_rfl (Nat.le_add_right _ _) (by omega) le_rfl

/-- The cascading pointers a search goes on with are those of the place of `x`. -/
theorem cascade_of_place (level run place : ℕ) :
    ((run * levelWidth (level + 1) + place) / cascading + 2 * run) * fanout =
      cascadeIdx (level + 1) run (place / cascading) := by
  have hwid : levelWidth (level + 1) / cascading = levelWidth level := by
    rw [levelWidth_succ]
    exact Nat.mul_div_cancel_left _ (by decide)
  have hdiv : (run * levelWidth (level + 1) + place) / cascading = run * levelWidth level + place / cascading := by
    rw [levelWidth_succ, Nat.mul_left_comm, Nat.add_comm]
    exact (add_mul_div_left _ _ (by decide)).trans (Nat.add_comm _ _)
  rw [hdiv, cascadeIdx, hwid]
  ring

/-- How many levels there are. -/
theorem le_width_levelsAbove (n width : ℕ) (hw : 0 < width) : n ≤ width * levelWidth (levelsAbove n width) := by
  fun_induction levelsAbove n width with
  | case1 width hlt ih =>
    have := ih (Nat.mul_pos hlt.1 (by decide))
    rwa [levelWidth_succ, ← Nat.mul_assoc]
  | case2 width hlt =>
    rw [levelWidth_zero]
    omega

/-- The top level is a single run. -/
theorem Built.count_le (h : t.Built leaves) : t.count ≤ levelWidth (t.size - 1) := by
  rw [h.size_eq, Nat.add_sub_cancel, ← Nat.one_mul (levelWidth _)]
  exact le_width_levelsAbove t.count 1 Nat.one_pos

/-! ## Covering positions -/

/-- The positions of the run of a call. -/
def AggregateCall.positions (c : AggregateCall) : List ℕ := range' c.runBegin (levelWidth c.level)

/-- A call is for a run of its level, with the place of `x` in it. -/
structure AggregateCall.Right (leaves : ℕ → E) (x : E) (c : AggregateCall) : Prop where
  aligned : levelWidth c.level ∣ c.runBegin
  runPos : c.runPos = c.runBegin +
    countLt leaves c.runBegin (c.runBegin + levelWidth c.level) x

/-- Calls that are right have all positions from `a` to `b`, once. -/
structure Covers (leaves : ℕ → E) (x : E) (calls : List AggregateCall) (a b : ℕ) : Prop where
  le : a ≤ b
  perm : (calls.flatMap AggregateCall.positions).Perm (range' a (b - a))
  right : ∀ c ∈ calls, c.Right leaves x

theorem Covers.nil (leaves : ℕ → E) (x : E) (a : ℕ) : Covers leaves x [] a a := by
  refine ⟨le_rfl, ?_, fun c hc => absurd hc not_mem_nil⟩
  rw [Nat.sub_self]
  exact .nil

variable {l l' : List AggregateCall}

theorem Covers.append {a b c : ℕ} (h : Covers leaves x l a b)
    (h' : Covers leaves x l' b c) : Covers leaves x (l ++ l') a c := by
  have hab := h.le
  have hbc := h'.le
  refine ⟨hab.trans hbc, ?_, fun d hd => (mem_append.1 hd).elim (h.right d) (h'.right d)⟩
  have hrng : range' a (b - a) ++ range' b (c - b) = range' a (c - a) := by
    rw [show c - a = (b - a) + (c - b) by omega, ← range'_append_1, Nat.add_sub_cancel' hab]
  rw [flatMap_append, ← hrng]
  exact h.perm.append h'.perm

/-- The order of the calls does not matter. -/
theorem Covers.of_perm {a b : ℕ} (h : Covers leaves x l a b) (hl : l.Perm l') : Covers leaves x l' a b :=
  ⟨h.le, (hl.flatMap_right _).symm.trans h.perm, fun c hc => h.right c (hl.mem_iff.2 hc)⟩

theorem Covers.append_comm {a b c : ℕ} (h : Covers leaves x l b c)
    (h' : Covers leaves x l' a b) : Covers leaves x (l ++ l') a c :=
  (h'.append h).of_perm perm_append_comm

theorem Covers.singleton {c : AggregateCall} (hc : c.Right leaves x) :
    Covers leaves x [c] c.runBegin (c.runBegin + levelWidth c.level) := by
  refine ⟨Nat.le_add_right _ _, ?_, fun d hd => mem_singleton.1 hd ▸ hc⟩
  rw [flatMap_singleton, Nat.add_sub_cancel_left]
  exact .rfl

theorem countLt_eq_countP (f : ℕ → E) (a b : ℕ) (x : E) :
    countLt f a b x = (range' a (b - a)).countP fun i => f i < x := by
  rw [countLt, Nat.count, range'_eq_map_range, countP_map]
  rfl

/-- The places of `x` in the runs add up. -/
theorem Covers.sum_eq {a b : ℕ} {l : List AggregateCall} (h : Covers leaves x l a b) :
    (l.map fun c => c.runPos - c.runBegin).sum = countLt leaves a b x := by
  rw [countLt_eq_countP, ← h.perm.countP_eq, countP_flatMap]
  refine congrArg sum (map_congr_left fun c hc => ?_)
  rw [(h.right c hc).runPos, Nat.add_sub_cancel_left, countLt_eq_countP, Nat.add_sub_cancel_left]
  rfl

/-! ## Levels with cascading pointers -/

/-- On the left side, above the runs of `level`: at the end of the run `k - 1` of the run that has `lower`. -/
def LeftAt (t : MergeSortTree E) (leaves : ℕ → E) (x : E) (level lower first : ℕ) (idx : ℤ) : Prop :=
  lower ≤ first ∧ (lower < first → ∃ k ≤ fanout,
    first = (fanout * (lower / levelWidth (level + 1)) + k) * levelWidth level ∧
    idx + fanout = cascadeIdx (level + 1) (lower / levelWidth (level + 1))
      (t.place leaves x (level + 1) (lower / levelWidth (level + 1)) / cascading) + k)

/-- On the right side: at the start of the run `k`, in the run that has what is left up to `upper`. -/
def RightAt (t : MergeSortTree E) (leaves : ℕ → E) (x : E) (level upper second idx : ℕ) : Prop :=
  second ≤ upper ∧ (second < upper → ∃ run, ∃ k < fanout,
    second = (fanout * run + k) * levelWidth level ∧ upper ≤ (run + 1) * levelWidth (level + 1) ∧
    idx = cascadeIdx (level + 1) run (t.place leaves x (level + 1) run / cascading) + k)

/-- A run that is not cut off by the end of the sequence. -/
theorem runBegin_of_le {n : ℕ} (h : run * levelWidth level ≤ n) :
    runBegin n level run = run * levelWidth level := Nat.min_eq_left h

theorem right_call (t : MergeSortTree E) (leaves : ℕ → E) (level run : ℕ) (hcnt : (run + 1) * levelWidth level ≤ t.count) {pos : ℕ}
    (hpos : pos = runBegin t.count level run + t.place leaves x level run) :
    AggregateCall.Right leaves x ⟨level, run * levelWidth level, pos⟩ := by
  have hbeg : run * levelWidth level ≤ t.count := (Nat.mul_le_mul_right _ (le_succ run)).trans hcnt
  refine ⟨Nat.dvd_mul_left _ _, ?_⟩
  rw [hpos, place, runEnd, runBegin_of_le hbeg, runBegin_of_le hcnt, succ_mul]

theorem cascadedLeft_spec (h : t.Built leaves) (hpos : 1 ≤ level) (hlev : level + 1 < t.size)
    {first k : ℕ} {idx : ℤ} (hfst : first = (fanout * run + k) * levelWidth level)
    (hk : k ≤ fanout) (hlow : run * levelWidth (level + 1) ≤ lower) (hle : lower ≤ first)
    (hcnt : first ≤ t.count)
    (hidx : idx + 1 = cascadeIdx (level + 1) run (t.place leaves x (level + 1) run / cascading) + k) :
    let r := t.cascadedLeft level x lower first idx
    Covers leaves x r.1 r.2.1 first ∧ lower ≤ r.2.1 ∧ r.2.1 - lower < levelWidth level ∧
      ∃ k' ≤ fanout, r.2.1 = (fanout * run + k') * levelWidth level ∧ r.2.2 + 1 =
          cascadeIdx (level + 1) run (t.place leaves x (level + 1) run / cascading) + k' := by
  have hwid := levelWidth_pos level
  rw [levelWidth_succ, ← Nat.mul_assoc, Nat.mul_comm run fanout] at hlow
  induction first, idx using cascadedLeft.induct t level x lower generalizing k with
  | case1 first idx hfit ih =>
    rw [cascadedLeft, if_pos hfit]
    -- There is a run left, so it is the run `k - 1`.
    obtain ⟨k, rfl⟩ : ∃ j, k = j + 1 := by
      refine exists_eq_succ_of_ne_zero ?_
      rintro rfl
      rw [Nat.add_zero] at hfst
      omega
    rw [← Nat.add_assoc, succ_mul] at hfst
    have hprev : first - levelWidth level = (fanout * run + k) * levelWidth level := by omega
    obtain ⟨hcov, hle', hlt, k', hk', hfst', hidx'⟩ :=
      ih hprev (by omega) (by omega) (by omega) (by push_cast at hidx; omega)
    refine ⟨?_, hle', hlt, k', hk', hfst', hidx'⟩
    have hsrch := h.searchCascade_eq (x := x) hpos hlev run (k := k)
      (by rw [levelWidth_succ, ← Nat.mul_assoc, Nat.mul_comm run fanout]; omega) (by omega)
    have hnat : idx.toNat = cascadeIdx (level + 1) run (t.place leaves x (level + 1) run / cascading) + k := by
      omega
    have hcall : AggregateCall.Right leaves x
        ⟨level, first - levelWidth level, t.searchCascade level x idx.toNat⟩ := by
      rw [hprev]
      refine right_call _ _ _ _ ?_ (hnat ▸ hsrch)
      rw [succ_mul]
      omega
    have hone := Covers.singleton hcall
    simp only [Nat.sub_add_cancel (show levelWidth level ≤ first by omega)] at hone
    exact hone.append_comm hcov
  | case2 first idx hfit =>
    rw [cascadedLeft, if_neg hfit]
    exact ⟨Covers.nil leaves x first, hle, not_le.1 hfit, k, hk, hfst, hidx⟩

theorem cascadedRight_spec (h : t.Built leaves) (hpos : 1 ≤ level) (hlev : level + 1 < t.size)
    {second k idx : ℕ} (hsnd : second = (fanout * run + k) * levelWidth level)
    (hup : upper ≤ (run + 1) * levelWidth (level + 1)) (hle : second ≤ upper)
    (hcnt : upper ≤ t.count)
    (hidx : idx = cascadeIdx (level + 1) run (t.place leaves x (level + 1) run / cascading) + k) :
    let r := t.cascadedRight level x upper second idx
    Covers leaves x r.1 second r.2.1 ∧ r.2.1 ≤ upper ∧ upper - r.2.1 < levelWidth level ∧
      ∃ k', r.2.1 = (fanout * run + k') * levelWidth level ∧
        r.2.2 = cascadeIdx (level + 1) run (t.place leaves x (level + 1) run / cascading) + k' := by
  have hwid := levelWidth_pos level
  have hrun : (run + 1) * levelWidth (level + 1) = (fanout * run + fanout) * levelWidth level := by
    rw [levelWidth_succ]
    ring
  rw [hrun] at hup
  induction second, idx using cascadedRight.induct t level x upper generalizing k with
  | case1 second idx hfit ih =>
    rw [cascadedRight, if_pos hfit]
    have hnx : second + levelWidth level = (fanout * run + (k + 1)) * levelWidth level := by
      rw [hsnd, ← Nat.add_assoc, succ_mul]
    -- The run ends no later than the run above.
    have hk : k < fanout := by
      have := Nat.le_of_mul_le_mul_right ((hnx ▸ by omega :
        (fanout * run + (k + 1)) * levelWidth level ≤ upper).trans hup) hwid
      omega
    obtain ⟨hcov, hle', hlt, k', hsnd', hidx'⟩ := ih hnx (by omega) (by omega)
    refine ⟨?_, hle', hlt, k', hsnd', hidx'⟩
    have hbeg : run * levelWidth (level + 1) ≤ second := by
      rw [hsnd, levelWidth_succ, ← Nat.mul_assoc, Nat.mul_comm run fanout]
      exact Nat.mul_le_mul_right _ (Nat.le_add_right _ _)
    have hsrch := h.searchCascade_eq (x := x) hpos hlev run (by omega) hk
    have hcall : AggregateCall.Right leaves x ⟨level, second, t.searchCascade level x idx⟩ := by
      have := right_call t leaves level (fanout * run + k) (by rw [Nat.add_assoc, ← hnx]; omega) (hidx ▸ hsrch)
      rwa [← hsnd] at this
    exact (Covers.singleton hcall).append hcov
  | case2 second idx hfit =>
    rw [cascadedRight, if_neg hfit]
    exact ⟨Covers.nil leaves x second, hle, not_le.1 hfit, k, hsnd, hidx⟩

/-- Where the walk is above the runs of `level`. -/
structure WalkAt (t : MergeSortTree E) (leaves : ℕ → E) (x : E) (lower upper level : ℕ)
    (w : Walk) : Prop where
  left : t.LeftAt leaves x level lower w.first w.cascadingFirst
  right : t.RightAt leaves x level upper w.second w.cascadingSecond
  dvd_first : levelWidth level ∣ w.first
  dvd_second : levelWidth level ∣ w.second
  covers : Covers leaves x w.calls w.first w.second

theorem levelWidth_dvd_succ (level : ℕ) : levelWidth level ∣ levelWidth (level + 1) := by
  rw [levelWidth_succ]
  exact Nat.dvd_mul_left _ _

section

variable (h : t.Built leaves) (hlev : level + 2 < t.size)

include h hlev

theorem cascadedLevel_left {first : ℕ} {idx : ℤ}
    (hlft : t.LeftAt leaves x (level + 1) lower first idx)
    (hdvd : levelWidth (level + 1) ∣ first) (hcnt : first ≤ t.count) :
    let r := t.cascadedLeft (level + 1) x lower first (idx + (fanout - 1))
    Covers leaves x r.1 r.2.1 first ∧ levelWidth (level + 1) ∣ r.2.1 ∧ t.LeftAt leaves x level lower r.2.1
        (if r.2.1 ≠ lower then
          (nextCascade (level + 1) (t.searchCascade (level + 1) x r.2.2.toNat) lower : ℤ)
        else r.2.2) := by
  obtain ⟨hle, hlt⟩ := hlft
  rcases hle.eq_or_lt with rfl | hlt'
  · rw [cascadedLeft, if_neg (by have := levelWidth_pos (level + 1); omega)]
    exact ⟨Covers.nil leaves x lower, hdvd, le_rfl, fun hlt => absurd hlt (lt_irrefl _)⟩
  obtain ⟨k, hk, hfst, hidx⟩ := hlt hlt'
  obtain ⟨p, hp⟩ : ∃ p, p = lower / levelWidth (level + 1 + 1) := ⟨_, rfl⟩
  rw [← hp] at hfst hidx
  have hlow : p * levelWidth (level + 1 + 1) ≤ lower := hp ▸ div_mul_le_self _ _
  have hsh : idx + (fanout - 1) + 1 = cascadeIdx (level + 1 + 1) p
      (t.place leaves x (level + 1 + 1) p / cascading) + k := by omega
  obtain ⟨hcov, hle', hrst, k', hk', hfst', hidx'⟩ := cascadedLeft_spec h (by omega) hlev hfst
    hk hlow hle hcnt hsh
  obtain ⟨r, hr⟩ : ∃ r, r = t.cascadedLeft (level + 1) x lower first (idx + (fanout - 1)) := ⟨_, rfl⟩
  rw [← hr] at hcov hle' hrst hfst' hidx' ⊢
  refine ⟨hcov, hfst' ▸ Nat.dvd_mul_left _ _, hle', fun hlt => ?_⟩
  rw [if_pos hlt.ne']
  -- The rest of the left side is in the run `k' - 1`.
  obtain ⟨j, rfl⟩ : ∃ j, k' = j + 1 := by
    refine exists_eq_succ_of_ne_zero ?_
    rintro rfl
    rw [Nat.add_zero, Nat.mul_comm fanout p, Nat.mul_assoc, ← levelWidth_succ] at hfst'
    omega
  rw [← Nat.add_assoc, succ_mul] at hfst'
  have hdiv : lower / levelWidth (level + 1) = fanout * p + j := by
    refine Nat.div_eq_of_lt_le (by omega) ?_
    rw [succ_mul]
    omega
  have hsrch := h.searchCascade_eq (x := x) (by omega) hlev p (k := j) (by omega)
    (by omega)
  rw [runBegin_of_le (by omega)] at hsrch
  have hnat : r.2.2.toNat = cascadeIdx (level + 1 + 1) p
      (t.place leaves x (level + 1 + 1) p / cascading) + j := by
    omega
  refine ⟨fanout, le_rfl, ?_, ?_⟩
  · rw [hfst', hdiv, levelWidth_succ]
    ring
  · rw [nextCascade, hnat, hsrch, hdiv, cascade_of_place]

theorem cascadedLevel_right {second idx : ℕ}
    (hrt : t.RightAt leaves x (level + 1) upper second idx)
    (hdvd : levelWidth (level + 1) ∣ second) (hcnt : upper ≤ t.count) :
    let r := t.cascadedRight (level + 1) x upper second idx
    Covers leaves x r.1 second r.2.1 ∧ levelWidth (level + 1) ∣ r.2.1 ∧ t.RightAt leaves x level upper r.2.1
        (if r.2.1 ≠ upper then
          nextCascade (level + 1) (t.searchCascade (level + 1) x r.2.2) upper
        else r.2.2) := by
  obtain ⟨hle, hlt⟩ := hrt
  rcases hle.eq_or_lt with rfl | hlt'
  · rw [cascadedRight, if_neg (by have := levelWidth_pos (level + 1); omega)]
    exact ⟨Covers.nil leaves x second, hdvd, le_rfl, fun hlt => absurd hlt (lt_irrefl _)⟩
  obtain ⟨p, k, hk, hsnd, hup, hidx⟩ := hlt hlt'
  obtain ⟨hcov, hle', hrst, k', hsnd', hidx'⟩ := cascadedRight_spec h (by omega) hlev hsnd
    hup hle hcnt hidx
  obtain ⟨r, hr⟩ : ∃ r, r = t.cascadedRight (level + 1) x upper second idx := ⟨_, rfl⟩
  rw [← hr] at hcov hle' hrst hsnd' hidx' ⊢
  refine ⟨hcov, hsnd' ▸ Nat.dvd_mul_left _ _, hle', fun hlt => ?_⟩
  rw [if_pos hlt.ne]
  have hrun : (p + 1) * levelWidth (level + 1 + 1) = (fanout * p + fanout) * levelWidth (level + 1) := by
    rw [levelWidth_succ (level + 1)]
    ring
  -- The rest of the right side is in the run `k'`.
  have hk' : k' < fanout := by
    have := Nat.lt_of_mul_lt_mul_right (hsnd' ▸ hlt.trans_le (hup.trans hrun.le))
    omega
  have hbeg : p * levelWidth (level + 1 + 1) ≤ r.2.1 := by
    rw [hsnd', levelWidth_succ (level + 1), ← Nat.mul_assoc, Nat.mul_comm p fanout]
    exact Nat.mul_le_mul_right _ (Nat.le_add_right _ _)
  have hdiv : upper / levelWidth (level + 1) = fanout * p + k' := by
    refine Nat.div_eq_of_lt_le (by omega) ?_
    rw [succ_mul]
    omega
  have hsrch := h.searchCascade_eq (x := x) (by omega) hlev p (by omega) hk'
  rw [runBegin_of_le (by omega)] at hsrch
  refine ⟨fanout * p + k', 0, by decide, ?_, ?_, ?_⟩
  · rw [hsnd', levelWidth_succ]
    ring
  · rw [succ_mul]
    omega
  · rw [nextCascade, hidx', hsrch, hdiv, cascade_of_place]
    exact (Nat.add_zero _).symm

variable {w : Walk} (hcnt : upper ≤ t.count) (hw : t.WalkAt leaves x lower upper (level + 1) w)

include hcnt hw

theorem WalkAt.cascadedLevel :
    t.WalkAt leaves x lower upper level (t.cascadedLevel (level + 1) x lower upper w) := by
  have hbetween : w.first ≤ t.count := hw.covers.le.trans (hw.right.1.trans hcnt)
  obtain ⟨hcov₁, hdvd₁, hlft⟩ := cascadedLevel_left h hlev hw.left hw.dvd_first hbetween
  obtain ⟨hcov₂, hdvd₂, hrt⟩ := cascadedLevel_right h hlev hw.right hw.dvd_second hcnt
  exact ⟨hlft, hrt, (levelWidth_dvd_succ level).trans hdvd₁,
    (levelWidth_dvd_succ level).trans hdvd₂, (hw.covers.append_comm hcov₁).append hcov₂⟩

theorem WalkAt.cascadedLevels :
    (t.cascadedLevels x lower upper (level + 2) w).1 = 1 ∧
      t.WalkAt leaves x lower upper 0 (t.cascadedLevels x lower upper (level + 2) w).2 := by
  induction level generalizing w with
  | zero =>
    rw [MergeSortTree.cascadedLevels, lowestCascadingLevel_eq]
    exact ⟨rfl, hw.cascadedLevel h hlev hcnt⟩
  | succ level ih =>
    rw [MergeSortTree.cascadedLevels, lowestCascadingLevel_eq, if_pos (by omega)]
    exact ih (by omega) (hw.cascadedLevel h hlev hcnt)

end

/-! ## Levels without cascading pointers -/

section

variable (h : t.Built leaves) (hlev : level < t.size)

include h hlev

/-- A run without cascading pointers. -/
theorem Built.right_plain (run : ℕ)
    (hcnt : (run + 1) * levelWidth level ≤ t.count) :
    AggregateCall.Right leaves x ⟨level, run * levelWidth level,
      lowerBound (t.elements level) (run * levelWidth level) ((run + 1) * levelWidth level) x⟩ := by
  have hbeg : run * levelWidth level ≤ t.count := (Nat.mul_le_mul_right _ (le_succ run)).trans hcnt
  have hsrch := h.lowerBound_run (x := x) hlev run
  rw [runEnd, runBegin_of_le hcnt] at hsrch
  refine right_call _ _ _ _ hcnt (hsrch ▸ ?_)
  rw [runBegin_of_le hbeg]

theorem plainLeft_spec {first : ℕ}
    (hdvd : levelWidth level ∣ first) (hle : lower ≤ first) (hcnt : first ≤ t.count) :
    let r := t.plainLeft level x lower first
    Covers leaves x r.1 r.2 first ∧ lower ≤ r.2 ∧ levelWidth level ∣ r.2 := by
  have hwid := levelWidth_pos level
  induction first using plainLeft.induct t level x lower with
  | case1 first hfit ih =>
    rw [plainLeft, if_pos hfit]
    obtain ⟨hcov, hle', hdvd'⟩ := ih (Nat.dvd_sub hdvd dvd_rfl) (by omega) (by omega)
    obtain ⟨run, hrun⟩ : ∃ run, first = (run + 1) * levelWidth level := by
      obtain ⟨c, rfl⟩ := hdvd
      cases c with
      | zero => omega
      | succ c => exact ⟨c, Nat.mul_comm _ _⟩
    have hprev : first - levelWidth level = run * levelWidth level := by
      rw [hrun, succ_mul, Nat.add_sub_cancel]
    have hcall := h.right_plain (x := x) hlev run (hrun ▸ hcnt)
    rw [← hrun, ← hprev] at hcall
    have hone := Covers.singleton hcall
    simp only [Nat.sub_add_cancel (show levelWidth level ≤ first by omega)] at hone
    exact ⟨hone.append_comm hcov, hle', hdvd'⟩
  | case2 first hfit =>
    rw [plainLeft, if_neg hfit]
    exact ⟨Covers.nil leaves x first, hle, hdvd⟩

theorem plainRight_spec {second : ℕ}
    (hdvd : levelWidth level ∣ second) (hle : second ≤ upper) (hcnt : upper ≤ t.count) :
    let r := t.plainRight level x upper second
    Covers leaves x r.1 second r.2 ∧ r.2 ≤ upper ∧ levelWidth level ∣ r.2 := by
  induction second using plainRight.induct t level x upper with
  | case1 second hfit ih =>
    rw [plainRight, if_pos hfit]
    obtain ⟨hcov, hle', hdvd'⟩ := ih (Nat.dvd_add hdvd dvd_rfl) (by omega)
    obtain ⟨run, rfl⟩ := exists_eq_mul_left_of_dvd hdvd
    have hcall := h.right_plain (x := x) hlev run (by rw [succ_mul]; omega)
    rw [succ_mul] at hcall
    exact ⟨(Covers.singleton hcall).append hcov, hle', hdvd'⟩
  | case2 second hfit =>
    rw [plainRight, if_neg hfit]
    exact ⟨Covers.nil leaves x second, hle, hdvd⟩

end

/-- The walk down the levels without cascading pointers. -/
theorem plainLevels_spec (h : t.Built leaves) (hlev : level ≤ t.size) (hcnt : upper ≤ t.count)
    {w : Walk} (hdvd₁ : levelWidth (level - 1) ∣ w.first) (hdvd₂ : levelWidth (level - 1) ∣ w.second)
    (hfst : lower ≤ w.first) (hsnd : w.second ≤ upper)
    (hcov : Covers leaves x w.calls w.first w.second) :
    let w' := t.plainLevels x lower upper level w
    lower ≤ w'.first ∧ w'.second ≤ upper ∧ Covers leaves x w'.calls w'.first w'.second := by
  induction level generalizing w with
  | zero => exact ⟨hfst, hsnd, hcov⟩
  | succ level ih =>
    cases level with
    | zero => exact ⟨hfst, hsnd, hcov⟩
    | succ level =>
      have hbetween : w.first ≤ t.count := hcov.le.trans (hsnd.trans hcnt)
      obtain ⟨hcov₁, hle₁, hdvd₁'⟩ := plainLeft_spec (x := x) h (by omega) hdvd₁ hfst hbetween
      obtain ⟨hcov₂, hle₂, hdvd₂'⟩ := plainRight_spec (x := x) h (by omega) hdvd₂ hsnd hcnt
      refine ih (by omega) ?_ ?_ hle₁ hle₂ ((hcov.append_comm hcov₁).append hcov₂)
      · exact (levelWidth_dvd_succ level).trans hdvd₁'
      · exact (levelWidth_dvd_succ level).trans hdvd₂'

/-- The calls for single positions. -/
theorem covers_leafCalls (h : t.Built leaves) {a n : ℕ} (hcnt : a + n ≤ t.count) :
    Covers leaves x ((range' a n).map (t.leafCall x)) a (a + n) := by
  induction n generalizing a with
  | zero => exact Covers.nil leaves x a
  | succ n ih =>
    have hcall : AggregateCall.Right leaves x (t.leafCall x a) := by
      refine ⟨Nat.one_dvd a, ?_⟩
      rw [leafCall, levelWidth_zero, countLt_succ, h.lowest a (by omega)]
    have hrst := ih (a := a + 1) (by omega)
    rw [show a + (n + 1) = a + 1 + n by omega]
    exact (Covers.singleton hcall).append hrst

/-! ## The entry point -/

/-- The entry point is the lowest run that has both ends. -/
theorem findEntry_spec (first second level : ℕ) (hne : first ≠ second) : let r := findEntry first second level
    ∃ l, r.2.2 = level + (l + 1) ∧ r.1 = first / levelWidth (l + 1) ∧
      r.1 = second / levelWidth (l + 1) ∧ r.2.1 = second / levelWidth l ∧
      first / levelWidth l ≠ second / levelWidth l := by
  fun_induction findEntry first second level with
  | case1 first second level heq =>
    exact ⟨0, rfl, rfl, heq, (Nat.div_one second).symm, by rwa [levelWidth_zero, Nat.div_one, Nat.div_one]⟩
  | case2 first second level hdiv ih =>
    obtain ⟨l, h₁, h₂, h₃, h₄, h₅⟩ := ih hdiv
    have hdiv' : ∀ n, n / fanout / levelWidth l = n / levelWidth (l + 1) := by
      intro n
      rw [Nat.div_div_eq_div_mul, levelWidth_succ]
    have hdiv'' : ∀ n, n / fanout / levelWidth (l + 1) = n / levelWidth (l + 1 + 1) := by
      intro n
      rw [Nat.div_div_eq_div_mul, levelWidth_succ (l + 1)]
    rw [hdiv''] at h₂ h₃
    rw [hdiv'] at h₄ h₅
    rw [hdiv'] at h₅
    exact ⟨l + 1, by rw [h₁]; omega, h₂, h₃, h₄, h₅⟩

theorem startCascade_spec (h : t.Built leaves) {prev k : ℕ} (hlev : level + 1 < t.size)
    (hprev : prev = fanout * run + k) (hk : k < fanout) (hlow : lower / levelWidth (level + 1) = run)
    (hlt : lower < prev * levelWidth level) (hgt : prev * levelWidth level < upper)
    (hup : upper ≤ (run + 1) * levelWidth (level + 1)) (hcnt : upper ≤ t.count) {w : Walk}
    (hw : w = ⟨[], prev * levelWidth level, prev * levelWidth level, 0, 0⟩) :
    t.WalkAt leaves x lower upper level (t.startCascade x run prev (level + 1) w) := by
  have hbeg : run * levelWidth (level + 1) ≤ t.count := by
    have := hlow ▸ div_mul_le_self lower (levelWidth (level + 1))
    omega
  -- The pointers of the place of `x` in the run.
  have hidx : (lowerBound (t.elements (level + 1)) (run * levelWidth (level + 1))
      (min (run * levelWidth (level + 1) + levelWidth (level + 1)) t.count) x / cascading +
        2 * (run * levelWidth (level + 1) / levelWidth (level + 1))) * fanout =
      cascadeIdx (level + 1) run (t.place leaves x (level + 1) run / cascading) := by
    have hsrch := h.lowerBound_run (x := x) hlev run
    rw [runEnd, runBegin_of_le hbeg, runBegin, succ_mul] at hsrch
    rw [hsrch, Nat.mul_div_cancel _ (levelWidth_pos _), cascade_of_place]
  have hcorrection : prev - run * fanout = k := by
    rw [hprev, Nat.mul_comm run, Nat.add_sub_cancel_left]
  rw [startCascade, hidx, hcorrection, hw]
  refine ⟨⟨hlt.le, fun _ => ⟨k, hk.le, ?_, ?_⟩⟩, ⟨hgt.le, fun _ => ⟨run, k, hk, ?_, hup, rfl⟩⟩,
    Nat.dvd_mul_left _ _, Nat.dvd_mul_left _ _, Covers.nil leaves x _⟩
  · rw [hlow, hprev]
  · rw [hlow]
    simp only
    omega
  · rw [hprev]

/-- The calls of `AggregateLowerBound` cover the positions asked for. -/
theorem Built.covers_aggregateLowerBound (h : t.Built leaves) (hlt : lower < upper)
    (hcnt : upper ≤ t.count) (x : E) :
    Covers leaves x (t.aggregateLowerBound x lower upper) lower upper := by
  obtain ⟨entry, hent⟩ : ∃ entry, entry = findEntry lower (upper - 1) 0 := ⟨_, rfl⟩
  -- Once the levels above the lowest are walked, the rest is covered position by position.
  have hfinish : ∀ level ≤ t.size, ∀ w : Walk, levelWidth (level - 1) ∣ w.first →
      levelWidth (level - 1) ∣ w.second → lower ≤ w.first → w.second ≤ upper →
      Covers leaves x w.calls w.first w.second →
      let w' := t.plainLevels x lower upper level w
      Covers leaves x (w'.calls ++ (range' lower (w'.first - lower)).map (t.leafCall x) ++
        (range' w'.second (upper - w'.second)).map (t.leafCall x)) lower upper := by
    intro level hlev w h₁ h₂ h₃ h₄ h₅
    obtain ⟨hfst, hsnd, hcov⟩ := plainLevels_spec h hlev hcnt h₁ h₂ h₃ h₄ h₅
    have hbetween := hcov.le
    have hlft := covers_leafCalls (x := x) h (a := lower)
      (n := (t.plainLevels x lower upper level w).first - lower) (by omega)
    have hrt := covers_leafCalls (x := x) h (a := (t.plainLevels x lower upper level w).second)
      (n := upper - (t.plainLevels x lower upper level w).second) (by omega)
    rw [Nat.add_sub_cancel' hfst] at hlft
    rw [Nat.add_sub_cancel' hsnd] at hrt
    exact (hcov.append_comm hlft).append hrt
  rw [aggregateLowerBound, if_neg (not_le.2 hlt), ← hent]
  by_cases hone : lower = upper - 1
  · -- A single position.
    simp only [if_pos hone]
    exact hfinish 0 (Nat.zero_le _) _ (Nat.one_dvd _) (Nat.one_dvd _) le_rfl hlt.le
      (Covers.nil leaves x lower)
  simp only [if_neg hone]
  obtain ⟨l, hl, hrun, hrun', hprev, hne⟩ := findEntry_spec lower (upper - 1) 0 hone
  rw [← hent, Nat.zero_add] at hl
  rw [← hent] at hrun hrun' hprev
  have hwid := levelWidth_pos l
  have hmid : entry.2.1 * levelWidth entry.2.2 / fanout = entry.2.1 * levelWidth l := by
    rw [hl, levelWidth_succ, Nat.mul_left_comm]
    exact Nat.mul_div_cancel_left _ (by decide)
  have hprev' : entry.2.1 / fanout = entry.1 := by
    rw [hprev, hrun', Nat.div_div_eq_div_mul, levelWidth_succ, Nat.mul_comm]
  have hlow : lower < entry.2.1 * levelWidth l := by
    rw [← Nat.div_lt_iff_lt_mul hwid, hprev]
    exact lt_of_le_of_ne (Nat.div_le_div_right (by omega)) hne
  have hup : entry.2.1 * levelWidth l < upper := by
    have := div_mul_le_self (upper - 1) (levelWidth l)
    rw [hprev]
    omega
  have hsz : l + 1 < t.size := by
    by_contra hge
    have htop : t.count ≤ levelWidth l :=
      h.count_le.trans (Nat.pow_le_pow_right (by decide) (show t.size - 1 ≤ l by omega))
    rw [div_eq_of_lt (by omega), div_eq_of_lt (by omega)] at hne
    exact hne rfl
  rw [hmid, hl]
  by_cases hcasc : lowestCascadingLevel < l + 1
  · rw [if_pos hcasc]
    rw [lowestCascadingLevel_eq] at hcasc
    obtain ⟨j, rfl⟩ : ∃ j, l = j + 1 := exists_eq_succ_of_ne_zero (by omega)
    have hmod := mod_lt entry.2.1 (show 0 < fanout by decide)
    have hbd : upper ≤ (entry.1 + 1) * levelWidth (j + 1 + 1) := by
      have hlst : upper - 1 < (entry.1 + 1) * levelWidth (j + 1 + 1) := by
        rw [← Nat.div_lt_iff_lt_mul (levelWidth_pos _), ← hrun']
        exact lt_succ_self _
      omega
    have hst := startCascade_spec (x := x) h hsz
      (hprev' ▸ (div_add_mod entry.2.1 fanout).symm) hmod hrun.symm hlow hup hbd hcnt rfl
    have hwalk := hst.cascadedLevels h hsz hcnt
    generalize t.cascadedLevels x lower upper (j + 1 + 1) _ = walked at hwalk ⊢
    obtain ⟨level, w⟩ := walked
    obtain ⟨rfl, hwalk⟩ := hwalk
    exact hfinish 1 (by omega) w hwalk.dvd_first hwalk.dvd_second hwalk.left.1 hwalk.right.1
      hwalk.covers
  · rw [if_neg hcasc]
    exact hfinish (l + 1) (by omega) _ (Nat.dvd_mul_left _ _) (Nat.dvd_mul_left _ _) hlow.le
      hup.le (Covers.nil leaves x _)

theorem countLt_getD [Inhabited E] (elements : List E) {a b : ℕ} (hab : a ≤ b) (hb : b ≤ elements.length) (x : E) :
    countLt (fun i => elements.getD i default) a b x = ((elements.drop a).take (b - a)).countP (· < x) := by
  have hmap : (elements.drop a).take (b - a) = (range' a (b - a)).map fun i => elements.getD i default := by
    refine ext_getElem (by simp; omega) fun i h₁ h₂ => ?_
    rw [length_take, length_drop] at h₁
    rw [getElem_take, getElem_drop, getElem_map, getElem_range', Nat.one_mul,
      getD_eq_getElem?_getD, getElem?_eq_getElem (by omega), Option.getD_some]
  rw [hmap, countP_map, countLt_eq_countP]
  rfl

/-- `AggregateLowerBound` calls its function on runs that partition the positions from `lower` to `upper`, each with
    the number of its elements below the needle. -/
theorem aggregateLowerBound_partitions [Inhabited E] (elements : List E) {lower upper : ℕ}
    (hlt : lower < upper) (hupper : upper ≤ elements.length) (needle : E) :
    let calls := (build elements).aggregateLowerBound needle lower upper
    (calls.flatMap fun c => range' c.runBegin (fanout ^ c.level)).Perm
        (range' lower (upper - lower)) ∧
      (∀ c ∈ calls, fanout ^ c.level ∣ c.runBegin ∧ c.runBegin ≤ c.runPos ∧ c.runPos - c.runBegin =
          ((elements.drop c.runBegin).take (fanout ^ c.level)).countP (· < needle)) ∧
      (calls.map fun c => c.runPos - c.runBegin).sum =
        ((elements.drop lower).take (upper - lower)).countP (· < needle) := by
  intro calls
  obtain ⟨hbt, hcnt⟩ := build_built elements
  have hcov : Covers _ needle calls lower upper := hbt.covers_aggregateLowerBound hlt (hcnt ▸ hupper) needle
  refine ⟨hcov.perm, fun c hc => ?_, ?_⟩
  · -- The run of a call is within the positions covered.
    have hend : c.runBegin + fanout ^ c.level ≤ elements.length := by
      have hpos : 0 < fanout ^ c.level := levelWidth_pos c.level
      have hmem : c.runBegin + (fanout ^ c.level - 1) ∈
          calls.flatMap AggregateCall.positions := by
        refine mem_flatMap.2 ⟨c, hc, mem_range'_1.2 ⟨Nat.le_add_right _ _, ?_⟩⟩
        rw [levelWidth]
        omega
      have hlst := (mem_range'_1.1 (hcov.perm.mem_iff.1 hmem)).2
      omega
    have hrt := hcov.right c hc
    have hcountLt := countLt_getD elements (Nat.le_add_right c.runBegin (fanout ^ c.level)) hend
      needle
    rw [Nat.add_sub_cancel_left] at hcountLt
    rw [← hcountLt, hrt.runPos, Nat.add_sub_cancel_left]
    exact ⟨hrt.aligned, Nat.le_add_right _ _, rfl⟩
  · rw [hcov.sum_eq, countLt_getD elements hlt.le hupper]

theorem aggregateLowerBound_partitions_four :
    (((build [5, 3, 9, 1]).aggregateLowerBound 6 1 4).map fun c => c.runPos - c.runBegin).sum = 2 :=
  (aggregateLowerBound_partitions [5, 3, 9, 1] (by decide) (by decide) 6).2.2

end MergeSortTree

end WfOpt

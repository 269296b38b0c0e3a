import WfOpt.Lib.KWayMerge
import WfOpt.Window.MergeSortTree

/-!
# Building the merge sort tree

What queries rely on (`MergeSortTree.Built`): every run of a level is sorted, has as many
elements below any value as the sequence has at its positions, and its cascading pointers
enclose, in the runs it is merged from, the place of any value that has its place between
them in the run. `BuildRun` establishes this for the run it merges, if it holds for the runs
of the level below.
-/

namespace WfOpt

open Nat Function List Finset

/-- How many of the elements at the positions `[a, b)` are below `x`. -/
def countLt {E : Type*} [LinearOrder E] (f : ℕ → E) (a b : ℕ) (x : E) : ℕ :=
  Nat.count (fun i => f (a + i) < x) (b - a)

section CountLt

variable {E : Type*} [LinearOrder E] {f g : ℕ → E} {a b c : ℕ} {x : E}

theorem countLt_eq_sub (hab : a ≤ b) :
    countLt f a b x = Nat.count (fun i => f i < x) b - Nat.count (fun i => f i < x) a := by
  have h := count_add (fun i => f i < x) a (b - a)
  rw [Nat.add_sub_cancel' hab] at h
  rw [h, Nat.add_sub_cancel_left, countLt]

theorem countLt_add (hab : a ≤ b) (hbc : b ≤ c) : countLt f a b x + countLt f b c x = countLt f a c x := by
  rw [countLt_eq_sub hab, countLt_eq_sub hbc, countLt_eq_sub (hab.trans hbc)]
  have h₁ := count_monotone (fun i => f i < x) hab
  have h₂ := count_monotone (fun i => f i < x) hbc
  omega

theorem countLt_self (f : ℕ → E) (a : ℕ) (x : E) : countLt f a a x = 0 := by
  rw [countLt, Nat.sub_self, count_zero]

theorem countLt_succ (f : ℕ → E) (a : ℕ) (x : E) : countLt f a (a + 1) x = if f a < x then 1 else 0 := by
  rw [countLt, Nat.add_sub_cancel_left, count_succ, count_zero, Nat.zero_add]
  rfl

theorem countLt_le (f : ℕ → E) (a b : ℕ) (x : E) : countLt f a b x ≤ b - a := count_le _

theorem countLt_congr (h : ∀ i, a ≤ i → i < b → f i = g i) : countLt f a b x = countLt g a b x := by
  rw [countLt, countLt, count_eq_card_filter_range, count_eq_card_filter_range]
  refine congrArg Finset.card (Finset.filter_congr fun i hi => ?_)
  rw [h (a + i) (by omega) (by have := Finset.mem_range.1 hi; omega)]

/-- A search in a sorted run finds the place of `x` from any positions around it. -/
theorem lowerBound_eq (hf : ∀ i j, a ≤ i → i ≤ j → j < b → f i ≤ f j) {s e : ℕ} (has : a ≤ s)
    (hs : s ≤ a + countLt f a b x) (he : a + countLt f a b x ≤ e) (heb : e ≤ b) :
    lowerBound f s e x = a + countLt f a b x := by
  have hlt : ∀ i, a ≤ i → i < b → (f i < x ↔ i < a + countLt f a b x) := by
    intro i hai hib
    have h := RunKeys.lt_count_iff (f := fun i => f (a + i)) (n := b - a)
      (fun i j hij hj => hf (a + i) (a + j) (by omega) (by omega) (by omega)) x (i := i - a)
      (by omega)
    rw [Nat.add_sub_cancel' hai] at h
    rw [h, countLt]
    omega
  fun_induction lowerBound f s e x with
  | case1 s h ih =>
    exact ih (by omega) ((hlt s has (by omega)).1 h.2)
  | case2 s h =>
    rcases Nat.lt_or_ge s e with hse | hse
    · have := (hlt s has (by omega)).not.1 fun hx => h ⟨hse, hx⟩
      omega
    · omega

end CountLt

namespace MergeSortTree

variable {E : Type*} [LinearOrder E]

/-! ## Runs -/

theorem levelWidth_zero : levelWidth 0 = 1 := rfl

theorem levelWidth_succ (level : ℕ) : levelWidth (level + 1) = fanout * levelWidth level := by
  rw [levelWidth, levelWidth, Nat.pow_succ, Nat.mul_comm]

theorem lowestCascadingLevel_eq : lowestCascadingLevel = 2 := by
  rw [lowestCascadingLevel, lowestCascadingLevelFrom, if_pos (by decide), lowestCascadingLevelFrom,
    if_pos (by decide), lowestCascadingLevelFrom, if_neg (by decide)]

theorem hasCascades_iff (level : ℕ) : hasCascades level = true ↔ 2 ≤ level := by
  rw [hasCascades, decide_eq_true_eq]
  match level with
  | 0 => simp [levelWidth, cascading]
  | 1 => simp [levelWidth, cascading, fanout]
  | level + 2 =>
    have := levelWidth_pos level
    rw [levelWidth_succ, levelWidth_succ, cascading, fanout]
    omega

/-- Where a run starts, among `n` elements. -/
def runBegin (n level run : ℕ) : ℕ := min (run * levelWidth level) n

/-- Where a run ends. -/
def runEnd (n level run : ℕ) : ℕ := runBegin n level (run + 1)

variable {n level run : ℕ}

theorem runBegin_le_runEnd (n level run : ℕ) : runBegin n level run ≤ runEnd n level run := by
  rw [runEnd, runBegin, runBegin, succ_mul]
  omega

theorem runEnd_le (n level run : ℕ) : runEnd n level run ≤ n := Nat.min_le_right _ _

/-- The first of the runs a run is merged from starts where it does. -/
theorem runBegin_child (n level run : ℕ) : runBegin n level (fanout * run) = runBegin n (level + 1) run := by
  rw [runBegin, runBegin, levelWidth_succ, Nat.mul_comm fanout run, Nat.mul_assoc]

/-- The last of the runs a run is merged from ends where it does. -/
theorem runBegin_child_end (n level run : ℕ) :
    runBegin n level (fanout * run + fanout) = runEnd n (level + 1) run := by
  rw [runEnd, ← runBegin_child, mul_succ]

theorem runBegin_mono {run' : ℕ} (h : run ≤ run') : runBegin n level run ≤ runBegin n level run' := by
  have := Nat.mul_le_mul_right (levelWidth level) h
  rw [runBegin, runBegin]
  omega

/-- The runs a run is merged from have its elements. -/
theorem sum_child_length (n level run : ℕ) : ∑ c ∈ range fanout,
        (runEnd n level (fanout * run + c) - runBegin n level (fanout * run + c)) =
      runEnd n (level + 1) run - runBegin n (level + 1) run := by
  rw [← runBegin_child, ← runBegin_child_end]
  exact sum_range_tsub (f := fun c => runBegin n level (fanout * run + c))
    (fun c c' h => runBegin_mono (by omega)) fanout

theorem sum_child_countLt (f : ℕ → E) (x : E) (n level run : ℕ) : ∑ c ∈ range fanout,
        countLt f (runBegin n level (fanout * run + c)) (runEnd n level (fanout * run + c)) x =
      countLt f (runBegin n (level + 1) run) (runEnd n (level + 1) run) x := by
  rw [countLt_eq_sub (runBegin_le_runEnd _ _ _), ← runBegin_child, ← runBegin_child_end]
  have hsum := sum_range_tsub
    (f := fun c => Nat.count (fun i => f i < x) (runBegin n level (fanout * run + c)))
    (fun c c' h => count_monotone _ (runBegin_mono (by omega))) fanout
  rw [Nat.add_zero] at hsum
  rw [← hsum]
  exact sum_congr rfl fun c _ => countLt_eq_sub (runBegin_le_runEnd _ _ _)

/-- Where the cascading pointers of a run are that belong to its position `32 * q`. -/
def cascadeIdx (level run q : ℕ) : ℕ := fanout * (run * (levelWidth level / cascading + 2) + q)

/-- A run is sorted, and has the elements of the sequence `leaves`, as far as they can be
    counted. -/
structure RunSorted (t : MergeSortTree E) (leaves : ℕ → E) (level run : ℕ) : Prop where
  mono : ∀ i j, runBegin t.count level run ≤ i → i ≤ j → j < runEnd t.count level run →
    t.elements level i ≤ t.elements level j
  countLt_eq : ∀ x, countLt (t.elements level) (runBegin t.count level run)
      (runEnd t.count level run) x =
    countLt leaves (runBegin t.count level run) (runEnd t.count level run) x

/-- What queries rely on in a run of the tree over the sequence `leaves`. -/
structure RunBuilt (t : MergeSortTree E) (leaves : ℕ → E) (level run : ℕ) : Prop
    extends t.RunSorted leaves level run where
  cascade : 2 ≤ level → ∀ x, ∀ c < fanout,
    let q := countLt leaves (runBegin t.count level run) (runEnd t.count level run) x / cascading
    let first := runBegin t.count (level - 1) (fanout * run + c)
    let last := runEnd t.count (level - 1) (fanout * run + c)
    first ≤ t.cascades level (cascadeIdx level run q + c) ∧
      t.cascades level (cascadeIdx level run q + c) ≤ first + countLt leaves first last x ∧
      first + countLt leaves first last x ≤ t.cascades level (cascadeIdx level run (q + 1) + c) ∧
      t.cascades level (cascadeIdx level run (q + 1) + c) ≤ last

/-- What queries rely on in a tree over the sequence `leaves`. -/
structure Built (t : MergeSortTree E) (leaves : ℕ → E) : Prop where
  size_eq : t.size = levelsAbove t.count 1 + 1
  lowest : ∀ i < t.count, t.elements 0 i = leaves i
  runs : ∀ level < t.size, ∀ run, run * levelWidth level < t.count → t.RunBuilt leaves level run

/-! ## Merging a run -/

section Merge

variable {t : MergeSortTree E} {leaves : ℕ → E}

/-- The runs a run is merged from, as sorted runs of keys. -/
def childKeys (t : MergeSortTree E) (level run : ℕ)
    (h : ∀ c < fanout, ∀ i j, runBegin t.count level (fanout * run + c) ≤ i → i ≤ j →
      j < runEnd t.count level (fanout * run + c) → t.elements level i ≤ t.elements level j) :
    RunKeys E where
  numRuns := fanout
  count c := runEnd t.count level (fanout * run + c) - runBegin t.count level (fanout * run + c)
  key c i := t.elements level (runBegin t.count level (fanout * run + c) + i)
  sorted c hc i j hij hj := h c hc _ _ (by omega) (by omega) (by omega)

/-- The player of a run, when `n` elements have been merged. -/
def player (k : RunKeys E) (n c : ℕ) : RunElement E :=
  if k.cut n c < k.count c then WithTop.some (toLex (k.key c (k.cut n c), c)) else ⊤

/-- The run `run` of `level + 1` with its first `n` elements merged, but for the cascading pointers. -/
structure Merging (t : MergeSortTree E) (level run : ℕ) (k : RunKeys E) (n : ℕ)
    (s : RunBuild E) : Prop where
  bounds : ∀ c < fanout, s.bounds c = runBegin t.count level (fanout * run + c) + k.cut n c
  games : ∃ w, Games.Played (fanout / 2) (player k n) s.games w ∧ s.winner = w 0
  elementIdx : s.elementIdx = run * levelWidth (level + 1) + n
  elements : ∀ i < n, ∃ m < k.numRuns, k.cut i m < k.count m ∧
    k.cut (i + 1) = update (k.cut i) m (k.cut i m + 1) ∧
    s.elements (run * levelWidth (level + 1) + i) = k.key m (k.cut i m)
  others : ∀ i, i < run * levelWidth (level + 1) ∨ run * levelWidth (level + 1) + n ≤ i →
    s.elements i = t.elements (level + 1) i

/-- The cascading pointers of a run with its first `n` elements merged. -/
structure Cascading (t : MergeSortTree E) (level run : ℕ) (k : RunKeys E) (n : ℕ)
    (s : RunBuild E) : Prop where
  idx : s.cascadeIdx = MergeSortTree.cascadeIdx (level + 1) run
    (if hasCascades (level + 1) then (n + cascading - 1) / cascading else 0)
  cascades : hasCascades (level + 1) → ∀ q, cascading * q < n → ∀ c < fanout,
    s.cascades (MergeSortTree.cascadeIdx (level + 1) run q + c) =
      runBegin t.count level (fanout * run + c) + k.cut (cascading * q) c
  others : ∀ i, i < MergeSortTree.cascadeIdx (level + 1) run 0 ∨ s.cascadeIdx ≤ i →
    s.cascades i = t.cascades (level + 1) i

variable {level run : ℕ}
  {h : ∀ c < fanout, ∀ i j, runBegin t.count level (fanout * run + c) ≤ i → i ≤ j →
    j < runEnd t.count level (fanout * run + c) → t.elements level i ≤ t.elements level j}

theorem childKeys_numRuns : (t.childKeys level run h).numRuns = fanout := rfl

theorem childKeys_count (c : ℕ) : (t.childKeys level run h).count c =
    runEnd t.count level (fanout * run + c) - runBegin t.count level (fanout * run + c) := rfl

theorem childKeys_key (c i : ℕ) : (t.childKeys level run h).key c i =
    t.elements level (runBegin t.count level (fanout * run + c) + i) := rfl

theorem childKeys_total : (t.childKeys level run h).total =
    runEnd t.count (level + 1) run - runBegin t.count (level + 1) run :=
  sum_child_length t.count level run

theorem childIdx_succ (level run c : ℕ) : childIdx (level + 1) run c = (fanout * run + c) * levelWidth level := by
  rw [childIdx, levelWidth_succ, Nat.add_sub_cancel]
  ring

omit [LinearOrder E] in
theorem boundEnd_succ (t : MergeSortTree E) (level run c : ℕ) :
    t.boundEnd (level + 1) run c = runEnd t.count level (fanout * run + c) := by
  rw [boundEnd, childIdx_succ, Nat.add_sub_cancel, runEnd, runBegin, succ_mul]

theorem firstPlayer_eq (c : ℕ) : t.firstPlayer (level + 1) run c = player (t.childKeys level run h) 0 c := by
  have hbeg : min (childIdx (level + 1) run c) t.count = runBegin t.count level (fanout * run + c) := by
    rw [childIdx_succ, runBegin]
  have hle := runBegin_le_runEnd t.count level (fanout * run + c)
  have hend := runEnd_le t.count level (fanout * run + c)
  rw [firstPlayer, hbeg, boundEnd_succ]
  rcases hle.eq_or_lt with heq | hlt
  · rw [if_neg (not_not_intro heq), player, childKeys_count, heq, Nat.sub_self, if_neg (Nat.not_lt_zero _)]
  · -- The run is not empty, so it starts where it should.
    have hidx : childIdx (level + 1) run c = runBegin t.count level (fanout * run + c) := by
      rw [← hbeg, Nat.min_eq_left (by omega)]
    rw [if_pos hlt.ne, player, childKeys_count, childKeys_key, RunKeys.cut, if_pos (Nat.sub_pos_of_lt hlt), hidx]
    rfl

theorem startRun_merging : Merging t level run (t.childKeys level run h) 0 (t.startRun (level + 1) run) := by
  have hplayers : t.firstPlayer (level + 1) run = player (t.childKeys level run h) 0 := by
    funext c
    exact firstPlayer_eq c
  refine ⟨fun c _ => ?_, ?_, rfl, fun i hi => absurd hi (Nat.not_lt_zero i), fun i _ => rfl⟩
  · rw [RunKeys.cut, Nat.add_zero, runBegin, ← childIdx_succ]
    rfl
  · rw [← hplayers]
    exact ⟨_, Games.played_start _ _, rfl⟩

theorem startRun_cascading : Cascading t level run (t.childKeys level run h) 0 (t.startRun (level + 1) run) := by
  refine ⟨?_, fun _ q hq => absurd hq (Nat.not_lt_zero _), fun i _ => rfl⟩
  have h0 : (0 + cascading - 1) / cascading = 0 := by decide
  rw [h0, ite_self, MergeSortTree.cascadeIdx, Nat.add_zero]
  exact Nat.mul_assoc _ _ _

variable {s : RunBuild E} {k : RunKeys E}

/-- The winner is the next element of the merge, as long as there is one. -/
theorem Merging.winner_cases {n : ℕ}
    (hk : k = t.childKeys level run h) (hs : Merging t level run k n s) (hn : n ≤ k.total) :
    (s.winner = ⊤ ∧ n = k.total) ∨ ∃ m < fanout, k.cut n m < k.count m ∧
        k.cut (n + 1) = Function.update (k.cut n) m (k.cut n m + 1) ∧
        s.winner = WithTop.some (toLex (k.key m (k.cut n m), m)) ∧ n < k.total := by
  have hruns : k.numRuns = fanout := by rw [hk, childKeys_numRuns]
  obtain ⟨w, hplayed, hwin⟩ := hs.games
  rw [hwin]
  by_cases hlft : ∃ r < fanout, k.cut n r < k.count r
  · right
    obtain ⟨r, hr, hcr⟩ := hlft
    obtain ⟨m, hm, hroot⟩ := hplayed.exists_root_eq (by decide)
    have hcm : k.cut n m < k.count m := by
      by_contra hcm
      have hle := hplayed.root_le_player (i := r) hr
      rw [hroot, player, if_neg hcm, player, if_pos hcr] at hle
      exact absurd hle (WithTop.not_top_le_coe _)
    -- The smallest player comes before all others, also by its run.
    have hadv := RunKeys.advance_eq (hruns ▸ hm) hcm fun r hr hcr hne => by
      have hle := hplayed.root_le_player (i := r) (by rw [hruns] at hr; exact hr)
      rw [hroot, player, if_pos hcm, player, if_pos hcr, WithTop.coe_le_coe, Prod.Lex.toLex_le_toLex] at hle
      rcases hle with hlt | ⟨heq, hlt⟩
      · exact .inl hlt
      · exact .inr ⟨heq, .inl (lt_of_le_of_ne hlt hne.symm)⟩
    refine ⟨m, hm, hcm, hadv, ?_, ?_⟩
    · rw [hroot, player, if_pos hcm]
    · have hsum : ∑ r ∈ Finset.range k.numRuns, k.cut n r < k.total :=
        Finset.sum_lt_sum (fun r _ => RunKeys.cut_le_count n r)
          ⟨m, Finset.mem_range.2 (hruns ▸ hm), hcm⟩
      rwa [RunKeys.sum_cut hn] at hsum
  · left
    push Not at hlft
    have hcut : ∀ r < fanout, k.cut n r = k.count r := fun r hr =>
      (RunKeys.cut_le_count n r).antisymm (hlft r hr)
    constructor
    · obtain ⟨m, hm, hroot⟩ := hplayed.exists_root_eq (by decide)
      rw [hroot, player, if_neg (hcut m hm).not_lt]
    · rw [← RunKeys.sum_cut hn, RunKeys.total]
      exact Finset.sum_congr rfl fun r hr => hcut r (hruns ▸ Finset.mem_range.1 hr)

omit [LinearOrder E] in
theorem RunBuild.fraction_eq (s : RunBuild E) (level : ℕ) :
    (s.fraction level).bounds = s.bounds ∧ (s.fraction level).games = s.games ∧
      (s.fraction level).elementIdx = s.elementIdx ∧
      (s.fraction level).elements = s.elements := by
  rw [fraction]
  split_ifs
  · exact ⟨rfl, rfl, rfl, rfl⟩
  · exact ⟨rfl, rfl, rfl, rfl⟩

theorem Merging.step {n m : ℕ} (hk : k = t.childKeys level run h) (hs : Merging t level run k n s) (hm : m < fanout)
    (hc : k.cut n m < k.count m)
    (hcut : k.cut (n + 1) = update (k.cut n) m (k.cut n m + 1))
    (hw : s.winner = WithTop.some (toLex (k.key m (k.cut n m), m))) :
    Merging t level run k (n + 1) (t.mergeElement (level + 1) run s (k.key m (k.cut n m)) m) := by
  obtain ⟨hbds, hgames, hidx, helems⟩ := s.fraction_eq (level + 1)
  obtain ⟨w, hplayed, hwin⟩ := hs.games
  rw [hw] at hwin
  have hcut_ne : ∀ c, c ≠ m → k.cut (n + 1) c = k.cut n c := by
    intro c hne
    rw [hcut, update_of_ne hne]
  have hcut_self : k.cut (n + 1) m = k.cut n m + 1 := by rw [hcut, update_self]
  -- The next player of the run takes the place of the winner.
  have hnx : update (player k n) m
      (if s.bounds m + 1 < t.boundEnd (level + 1) run m then
        WithTop.some (toLex (t.elements level (s.bounds m + 1), m))
      else ⊤) = player k (n + 1) := by
    funext c
    rcases eq_or_ne c m with rfl | hne
    · rw [update_self, player, hcut_self, hs.bounds c hm, boundEnd_succ, Nat.add_assoc]
      have hcnt := childKeys_count (h := h) c
      rw [hk] at hc ⊢
      refine if_congr ?_ rfl rfl
      omega
    · rw [update_of_ne hne, player, player, hcut_ne c hne]
  refine ⟨fun c hcf => ?_, ?_, ?_, fun i hi => ?_, fun i hi => ?_⟩
  · simp only [mergeElement, hbds]
    rcases eq_or_ne c m with rfl | hne
    · rw [update_self, hs.bounds c hm, hcut_self, Nat.add_assoc]
    · rw [update_of_ne hne, hs.bounds c hcf, hcut_ne c hne]
  · simp only [mergeElement, hbds, hgames]
    rw [← hnx]
    have hroot : w 0 = player k n m := by rw [← hwin, player, if_pos hc]
    have := hplayed.replay (i := m) hm hroot (if s.bounds m + 1 < t.boundEnd (level + 1) run m then
      WithTop.some (toLex (t.elements level (s.bounds m + 1), m)) else ⊤)
    rwa [Nat.add_comm (2 * (fanout / 2) - 1) m] at this
  · simp only [mergeElement, hidx, hs.elementIdx]
    rw [Nat.add_assoc]
  · simp only [mergeElement, hidx, helems, hs.elementIdx]
    rcases Nat.lt_succ_iff_lt_or_eq.1 hi with hlt | rfl
    · rw [update_of_ne (by omega)]
      exact hs.elements i hlt
    · rw [update_self]
      refine ⟨m, ?_, hc, hcut, rfl⟩
      rw [hk]
      exact hm
  · simp only [mergeElement, hidx, helems, hs.elementIdx]
    rw [update_of_ne (by omega)]
    exact hs.others i (by omega)

omit [LinearOrder E] in
theorem RunBuild.addCascades_of_lt (s : RunBuild E) {c : ℕ} (hc : c < fanout) :
    s.addCascades.cascades (s.cascadeIdx + c) = s.bounds c := by
  simp only [addCascades]
  rw [if_pos (by omega), Nat.add_sub_cancel_left]

omit [LinearOrder E] in
theorem RunBuild.addCascades_of_not (s : RunBuild E) {i : ℕ}
    (hi : i < s.cascadeIdx ∨ s.cascadeIdx + fanout ≤ i) : s.addCascades.cascades i = s.cascades i := by
  simp only [addCascades]
  rw [if_neg (by omega)]

theorem cascadeIdx_succ (level run q : ℕ) : cascadeIdx level run (q + 1) = cascadeIdx level run q + fanout := by
  rw [cascadeIdx, cascadeIdx, ← Nat.add_assoc, mul_succ]

theorem cascadeIdx_add_lt (level run : ℕ) {q q' c : ℕ} (hq : q < q') (hc : c < fanout) :
    cascadeIdx level run q + c < cascadeIdx level run q' := by
  have h := Nat.mul_le_mul_left fanout (Nat.add_le_add_left (succ_le_of_lt hq)
    (run * (levelWidth level / cascading + 2)))
  rw [cascadeIdx, cascadeIdx]
  rw [succ_eq_add_one, ← Nat.add_assoc, mul_succ] at h
  omega

theorem cascadeIdx_mono (level run : ℕ) {q q' : ℕ} (hq : q ≤ q') :
    cascadeIdx level run q ≤ cascadeIdx level run q' :=
  Nat.mul_le_mul_left fanout (Nat.add_le_add_left hq _)

/-- One more element is merged: the cascading pointers are those of the positions before it. -/
theorem Cascading.step {n m : ℕ} {element : E}
    (hs : Cascading t level run k n s) (hmerge : Merging t level run k n s) :
    Cascading t level run k (n + 1) (t.mergeElement (level + 1) run s element m) := by
  have hmod : s.elementIdx % cascading = n % cascading := by
    rw [hmerge.elementIdx, levelWidth_succ, show fanout = cascading from rfl, Nat.mul_left_comm, mul_add_mod]
  have hidx := hs.idx
  suffices hfrac : Cascading t level run k (n + 1) (s.fraction (level + 1)) by
    exact ⟨hfrac.idx, hfrac.cascades, hfrac.others⟩
  rw [RunBuild.fraction, hmod]
  by_cases hcasc : hasCascades (level + 1) = true
  · rw [if_pos hcasc] at hidx
    by_cases hn : n % cascading = 0
    · -- The pointers of a new position are added behind those of the positions before.
      rw [if_pos ⟨hcasc, hn⟩]
      obtain ⟨q, rfl⟩ := dvd_of_mod_eq_zero hn
      have hq : (cascading * q + cascading - 1) / cascading = q := by
        rw [cascading]
        omega
      have hq' : (cascading * q + 1 + cascading - 1) / cascading = q + 1 := by
        rw [cascading]
        omega
      rw [hq] at hidx
      refine ⟨?_, fun _ q' hq'' c hc => ?_, fun i hi => ?_⟩
      · rw [if_pos hcasc, hq', cascadeIdx_succ, ← hidx]
        rfl
      · have hle : q' ≤ q := by
          rw [cascading] at hq''
          omega
        rcases hle.eq_or_lt with rfl | hlt
        · rw [← hidx, s.addCascades_of_lt hc, hmerge.bounds c hc]
        · rw [s.addCascades_of_not (.inl (by rw [hidx]; exact cascadeIdx_add_lt _ _ hlt hc))]
          exact hs.cascades hcasc q' (Nat.mul_lt_mul_of_pos_left hlt (by decide)) c hc
      · have hfst := cascadeIdx_mono (level + 1) run (Nat.zero_le q)
        have hadd : s.addCascades.cascadeIdx = s.cascadeIdx + fanout := rfl
        rw [s.addCascades_of_not (by omega)]
        exact hs.others i (by omega)
    · rw [if_neg (fun h => hn h.2)]
      have hq : (n + 1 + cascading - 1) / cascading = (n + cascading - 1) / cascading := by
        rw [cascading] at hn ⊢
        omega
      refine ⟨?_, fun _ q hq' => hs.cascades hcasc q ?_, hs.others⟩
      · rw [if_pos hcasc, hq, hidx]
      · rw [cascading] at hn hq' ⊢
        omega
  · rw [if_neg (fun h => hcasc h.1)]
    refine ⟨?_, fun h => absurd h hcasc, hs.others⟩
    rw [hidx, if_neg hcasc, if_neg hcasc]

/-- The loop of `BuildRun` merges all elements. -/
theorem mergeRun_merged {fuel n : ℕ} (hk : k = t.childKeys level run h) (hs : Merging t level run k n s)
    (hcasc : Cascading t level run k n s) (hn : n ≤ k.total) (hfuel : k.total < n + fuel) :
    (t.mergeRun (level + 1) run fuel s).winner = ⊤ ∧
      Merging t level run k k.total (t.mergeRun (level + 1) run fuel s) ∧
      Cascading t level run k k.total (t.mergeRun (level + 1) run fuel s) := by
  induction fuel generalizing n s with
  | zero => omega
  | succ fuel ih =>
    rcases hs.winner_cases hk hn with ⟨hw, heq⟩ | ⟨m, hm, hc, hcut, hw, hlt⟩
    · have hdone : t.mergeRun (level + 1) run (fuel + 1) s = s := by
        rw [mergeRun, hw]
      rw [hdone, ← heq]
      exact ⟨hw, hs, hcasc⟩
    · rw [mergeRun, hw]
      exact ih (hs.step hk hm hc hcut hw) (hcasc.step hs) hlt (by omega)

/-- The last position of the pointers is the end, twice. -/
theorem Cascading.finish (hs : Cascading t level run k k.total s) (hmerge : Merging t level run k k.total s)
    (hcasc : hasCascades (level + 1) = true) {q c : ℕ}
    (hq : q ≤ (k.total + cascading - 1) / cascading + 1) (hc : c < fanout) :
    s.addCascades.addCascades.cascades (MergeSortTree.cascadeIdx (level + 1) run q + c) =
      runBegin t.count level (fanout * run + c) + k.cut (min (cascading * q) k.total) c := by
  obtain ⟨Q, hQ⟩ : ∃ Q, Q = (k.total + cascading - 1) / cascading := ⟨_, rfl⟩
  have hidx := hs.idx
  rw [if_pos hcasc, ← hQ] at hidx
  have hidx' : s.addCascades.cascadeIdx = MergeSortTree.cascadeIdx (level + 1) run (Q + 1) := by
    rw [cascadeIdx_succ, ← hidx]
    rfl
  have hend : ∀ q', Q ≤ q' → min (cascading * q') k.total = k.total := by
    intro q' hq'
    rw [cascading] at hQ ⊢
    omega
  rcases Nat.lt_trichotomy q Q with hlt | rfl | hgt
  · -- Pointers that have been added before stay.
    have hbef := cascadeIdx_add_lt (level + 1) run hlt hc
    have hmono := cascadeIdx_mono (level + 1) run (Nat.le_add_right Q 1)
    have hq' : cascading * q < k.total := by
      rw [cascading] at hQ ⊢
      omega
    rw [RunBuild.addCascades_of_not _ (by omega), RunBuild.addCascades_of_not _ (by omega),
      hs.cascades hcasc q hq' c hc, Nat.min_eq_left hq'.le]
  · have hbef := cascadeIdx_add_lt (level + 1) run (Nat.lt_add_one q) hc
    rw [RunBuild.addCascades_of_not _ (by omega), ← hidx, s.addCascades_of_lt hc, hmerge.bounds c hc, hend q le_rfl]
  · obtain rfl : q = Q + 1 := by omega
    rw [← hidx', s.addCascades.addCascades_of_lt hc, hend _ (le_succ Q)]
    exact hmerge.bounds c hc

/-- What a run needs of a tree is not changed from outside of it. -/
theorem RunBuilt.congr {t' : MergeSortTree E} (ht : t.RunBuilt leaves level run) (hcnt : t'.count = t.count)
    (helems : ∀ i < runEnd t.count level run, t'.elements level i = t.elements level i)
    (hcascades : ∀ i < cascadeIdx level (run + 1) 0, t'.cascades level i = t.cascades level i) :
    t'.RunBuilt leaves level run := by
  refine ⟨⟨fun i j hi hij hj => ?_, fun x => ?_⟩, fun hlev x c hc => ?_⟩
  · rw [hcnt] at hi hj
    rw [helems i (by omega), helems j hj]
    exact ht.mono i j hi hij hj
  · rw [hcnt, ← ht.countLt_eq x]
    exact countLt_congr fun i _ hi => helems i hi
  · -- The pointers that are read belong to the run.
    have hwid : runEnd t.count level run - runBegin t.count level run ≤ levelWidth level := by
      rw [runEnd, runBegin, runBegin, succ_mul]
      omega
    have hle := countLt_le leaves (runBegin t.count level run) (runEnd t.count level run) x
    have hq : countLt leaves (runBegin t.count level run) (runEnd t.count level run) x / cascading ≤
        levelWidth level / cascading := Nat.div_le_div_right (hle.trans hwid)
    have hlst : cascadeIdx level (run + 1) 0 = cascadeIdx level run (levelWidth level / cascading + 2) := by
      rw [cascadeIdx, cascadeIdx, succ_mul, Nat.add_zero]
    have hcascade := ht.cascade hlev x c hc
    simp only [hcnt]
    rw [hcascades _ (hlst ▸ cascadeIdx_add_lt _ _ (by omega) hc),
      hcascades _ (hlst ▸ cascadeIdx_add_lt _ _ (by omega) hc)]
    exact hcascade

theorem mergeRun_start (hk : k = t.childKeys level run h) :
    Merging t level run k k.total (t.mergeRun (level + 1) run (levelWidth (level + 1) + 1)
        (t.startRun (level + 1) run)) ∧
      Cascading t level run k k.total (t.mergeRun (level + 1) run (levelWidth (level + 1) + 1)
        (t.startRun (level + 1) run)) := by
  have hwid : k.total ≤ levelWidth (level + 1) := by
    rw [hk, childKeys_total, runEnd, runBegin, runBegin, succ_mul]
    omega
  exact (mergeRun_merged hk (hk ▸ startRun_merging) (hk ▸ startRun_cascading) (Nat.zero_le _) (by omega)).2

section

variable (t : MergeSortTree E) (level run : ℕ)

theorem buildRun_of_ne {l : ℕ} (hl : l ≠ level) :
    (t.buildRun level run).elements l = t.elements l ∧ (t.buildRun level run).cascades l = t.cascades l :=
  ⟨update_of_ne hl _ _, update_of_ne hl _ _⟩

theorem buildRun_elements : (t.buildRun level run).elements level =
      (t.mergeRun level run (levelWidth level + 1) (t.startRun level run)).elements := by
  simp only [buildRun, update_self]
  split_ifs
  · rfl
  · rfl

theorem buildRun_cascades : (t.buildRun level run).cascades level =
      let s := t.mergeRun level run (levelWidth level + 1) (t.startRun level run)
      if hasCascades level then s.addCascades.addCascades.cascades else s.cascades := by
  simp only [buildRun, update_self]
  split_ifs
  · rfl
  · rfl

theorem buildRun_before
    (h : ∀ c < fanout, ∀ i j, runBegin t.count level (fanout * run + c) ≤ i → i ≤ j →
      j < runEnd t.count level (fanout * run + c) → t.elements level i ≤ t.elements level j) :
    (∀ i < run * levelWidth (level + 1),
        (t.buildRun (level + 1) run).elements (level + 1) i = t.elements (level + 1) i) ∧
      ∀ i < cascadeIdx (level + 1) run 0,
        (t.buildRun (level + 1) run).cascades (level + 1) i = t.cascades (level + 1) i := by
  obtain ⟨hmerge, hcasc⟩ := mergeRun_start (k := t.childKeys level run h) rfl
  rw [buildRun_elements, buildRun_cascades]
  refine ⟨fun i hi => hmerge.others i (.inl hi), fun i hi => ?_⟩
  have hidx : cascadeIdx (level + 1) run 0 ≤ (t.mergeRun (level + 1) run
      (levelWidth (level + 1) + 1) (t.startRun (level + 1) run)).cascadeIdx := by
    rw [hcasc.idx]
    exact cascadeIdx_mono _ _ (Nat.zero_le _)
  split_ifs
  · rw [RunBuild.addCascades_of_not _ (.inl (hi.trans_le (hidx.trans (Nat.le_add_right _ _)))),
      RunBuild.addCascades_of_not _ (.inl (hi.trans_le hidx))]
    exact hcasc.others i (.inl hi)
  · exact hcasc.others i (.inl hi)

end

theorem buildRun_built (hrun : run * levelWidth (level + 1) < t.count)
    (hch : ∀ c < fanout, t.RunSorted leaves level (fanout * run + c)) :
    (t.buildRun (level + 1) run).RunBuilt leaves (level + 1) run := by
  obtain ⟨k, hk⟩ : ∃ k, k = t.childKeys level run fun c hc => (hch c hc).mono := ⟨_, rfl⟩
  obtain ⟨hmerge, hcasc⟩ := mergeRun_start hk
  have hbeg : runBegin t.count (level + 1) run = run * levelWidth (level + 1) := Nat.min_eq_left hrun.le
  have htot : k.total = runEnd t.count (level + 1) run - run * levelWidth (level + 1) := by
    rw [hk, childKeys_total, hbeg]
  have hismerge : k.IsMerge fun i => (t.buildRun (level + 1) run).elements (level + 1)
      (run * levelWidth (level + 1) + i) := by
    intro i hi
    rw [buildRun_elements]
    exact hmerge.elements i hi
  -- What is below `x` in the runs merged is what the sequence has below it.
  have hbelow : ∀ x, ∀ c < fanout, k.below x c = countLt leaves (runBegin t.count level (fanout * run + c))
        (runEnd t.count level (fanout * run + c)) x := by
    intro x c hc
    rw [← (hch c hc).countLt_eq x, hk]
    rfl
  have hsum : ∀ x, ∑ c ∈ Finset.range k.numRuns, k.below x c =
      countLt leaves (runBegin t.count (level + 1) run) (runEnd t.count (level + 1) run) x := by
    intro x
    rw [← sum_child_countLt, hk]
    exact Finset.sum_congr rfl fun c hc => hk ▸ hbelow x c (Finset.mem_range.1 hc)
  refine ⟨⟨fun i j hi hij hj => ?_, fun x => ?_⟩, fun hlev x c hc => ?_⟩
  · have hi' : runBegin t.count (level + 1) run ≤ i := hi
    have hj' : j < runEnd t.count (level + 1) run := hj
    have := hismerge.mono (i := i - run * levelWidth (level + 1))
      (j := j - run * levelWidth (level + 1)) (by omega) (by omega)
    rwa [Nat.add_sub_cancel' (by omega), Nat.add_sub_cancel' (by omega)] at this
  · have hcnt := hismerge.count_total x
    rw [hsum x, htot, ← hbeg] at hcnt
    exact hcnt
  · obtain ⟨o, ho⟩ : ∃ o, o = countLt leaves (runBegin t.count (level + 1) run)
        (runEnd t.count (level + 1) run) x := ⟨_, rfl⟩
    have hle := countLt_le leaves (runBegin t.count (level + 1) run)
      (runEnd t.count (level + 1) run) x
    have hpointer : ∀ q ≤ (k.total + cascading - 1) / cascading + 1,
        (t.buildRun (level + 1) run).cascades (level + 1) (cascadeIdx (level + 1) run q + c) =
          runBegin t.count level (fanout * run + c) + k.cut (min (cascading * q) k.total) c := by
      intro q hq
      have hhas := (hasCascades_iff (level + 1)).2 hlev
      rw [buildRun_cascades]
      rw [if_pos hhas]
      exact hcasc.finish hmerge hhas hq hc
    have hq : o / cascading ≤ (k.total + cascading - 1) / cascading := by
      rw [cascading]
      omega
    have hcut := RunKeys.cut_le_count (s := k) (min (cascading * (o / cascading + 1)) k.total) c
    have hck : k.count c = runEnd t.count level (fanout * run + c) -
        runBegin t.count level (fanout * run + c) := by rw [hk, childKeys_count]
    have hbe := runBegin_le_runEnd t.count level (fanout * run + c)
    have hlo : k.cut (min (cascading * (o / cascading)) k.total) c ≤ k.below x c := by
      refine RunKeys.cut_le_below ?_ (hk ▸ hc)
      rw [hsum x, ← ho, cascading]
      omega
    have hhi : k.below x c ≤ k.cut (min (cascading * (o / cascading + 1)) k.total) c := by
      refine RunKeys.below_le_cut_of_le ?_ (Nat.min_le_right _ _) (hk ▸ hc)
      rw [hsum x, ← ho, cascading]
      omega
    rw [hbelow x c hc] at hlo hhi
    have hcnt : (t.buildRun (level + 1) run).count = t.count := rfl
    simp only [hcnt, Nat.add_sub_cancel]
    rw [← ho, hpointer _ (by omega), hpointer _ (by omega)]
    omega

end Merge

/-! ## Building the tree -/

variable {t : MergeSortTree E} {leaves : ℕ → E}

/-- Nothing is asked of a run that is empty. -/
theorem RunSorted.of_le (h : t.count ≤ run * levelWidth level) : t.RunSorted leaves level run := by
  have hbeg : runBegin t.count level run = t.count := Nat.min_eq_right h
  have hend := runEnd_le t.count level run
  have hle := runBegin_le_runEnd t.count level run
  refine ⟨fun i j hi hij hj => ?_, fun x => ?_⟩
  · omega
  · rw [hbeg, show runEnd t.count level run = t.count by omega, countLt_self, countLt_self]

/-- The levels up to `level`, and the first runs of the next one, are built. -/
structure BuiltTo (t : MergeSortTree E) (leaves : ℕ → E) (level runs : ℕ) : Prop where
  lowest : ∀ i < t.count, t.elements 0 i = leaves i
  below : ∀ l ≤ level, ∀ run, run * levelWidth l < t.count → t.RunBuilt leaves l run
  next : ∀ run < runs, run * levelWidth (level + 1) < t.count → t.RunBuilt leaves (level + 1) run

theorem BuiltTo.buildRun {runs : ℕ} (h : t.BuiltTo leaves level runs)
    (hruns : runs * levelWidth (level + 1) < t.count) :
    (t.buildRun (level + 1) runs).BuiltTo leaves level (runs + 1) := by
  have hch : ∀ c < fanout, t.RunSorted leaves level (fanout * runs + c) := by
    intro c _
    rcases Nat.lt_or_ge ((fanout * runs + c) * levelWidth level) t.count with hlt | hge
    · exact (h.below level le_rfl _ hlt).toRunSorted
    · exact .of_le hge
  obtain ⟨helems, hcascades⟩ := t.buildRun_before level runs fun c hc => (hch c hc).mono
  refine ⟨fun i hi => ?_, fun l hl run hrun => ?_, fun run hrun hcnt => ?_⟩
  · exact h.lowest i hi
  · obtain ⟨h₁, h₂⟩ := t.buildRun_of_ne (level + 1) runs (l := l) (by omega)
    exact (h.below l hl run hrun).congr rfl (fun i _ => by rw [h₁]) (fun i _ => by rw [h₂])
  · rcases Nat.lt_succ_iff_lt_or_eq.1 hrun with hlt | rfl
    · -- A run that is built before is not touched.
      have hend : runEnd t.count (level + 1) run ≤ runs * levelWidth (level + 1) :=
        (Nat.min_le_left _ _).trans (Nat.mul_le_mul_right _ hlt)
      have hidx : cascadeIdx (level + 1) (run + 1) 0 ≤ cascadeIdx (level + 1) runs 0 :=
        Nat.mul_le_mul_left _ (Nat.mul_le_mul_right _ hlt)
      exact (h.next run hlt hcnt).congr rfl (fun i hi => helems i (hi.trans_le hend))
        (fun i hi => hcascades i (hi.trans_le hidx))
    · exact buildRun_built hruns hch

theorem BuiltTo.buildLevel (h : t.BuiltTo leaves level 0) : (t.buildLevel (level + 1)).BuiltTo leaves (level + 1) 0 ∧
      (t.buildLevel (level + 1)).count = t.count ∧ (t.buildLevel (level + 1)).size = t.size := by
  obtain ⟨numRuns, hnum⟩ : ∃ r, r = (t.count + levelWidth (level + 1) - 1) / levelWidth (level + 1) := ⟨_, rfl⟩
  have hwid := levelWidth_pos (level + 1)
  have hlt : ∀ run, run * levelWidth (level + 1) < t.count ↔ run < numRuns := by
    intro run
    rw [hnum, Nat.lt_div_iff_mul_lt hwid]
    omega
  have hfold : ∀ r ≤ numRuns, ∃ t', t' = (List.range r).foldl
      (fun t run => t.buildRun (level + 1) run) t ∧ t'.BuiltTo leaves level r ∧
        t'.count = t.count ∧ t'.size = t.size := by
    intro r
    induction r with
    | zero => exact fun _ => ⟨t, rfl, h, rfl, rfl⟩
    | succ r ih =>
      intro hr
      obtain ⟨t', ht', hbt, hcnt, hsz⟩ := ih (le_of_succ_le hr)
      refine ⟨t'.buildRun (level + 1) r, ?_, hbt.buildRun ?_, hcnt, hsz⟩
      · rw [List.range_succ, List.foldl_append, ← ht']
        rfl
      · rw [hcnt]
        exact (hlt r).2 hr
  obtain ⟨t', ht', hbt, hcnt, hsz⟩ := hfold numRuns le_rfl
  rw [MergeSortTree.buildLevel, ← hnum, ← ht']
  refine ⟨⟨hbt.lowest, fun l hl run hrun => ?_, fun run hrun => absurd hrun (Nat.not_lt_zero _)⟩, hcnt, hsz⟩
  rcases Nat.lt_succ_iff_lt_or_eq.1 (lt_succ_of_le hl) with hl | rfl
  · exact hbt.below l (by omega) run hrun
  · exact hbt.next run ((hlt run).1 (hcnt ▸ hrun)) hrun

theorem allocate_built [Inhabited E] (lowest : List E) :
    (allocate lowest).BuiltTo (fun i => lowest.getD i default) 0 0 := by
  have hlowest : ∀ i, (allocate lowest).elements 0 i = lowest.getD i default := fun i => rfl
  refine ⟨fun i _ => hlowest i, fun l hl run hrun => ?_, fun run hrun => absurd hrun (Nat.not_lt_zero _)⟩
  obtain rfl : l = 0 := by omega
  refine ⟨⟨fun i j hi hij hj => ?_, fun x => countLt_congr fun i _ _ => hlowest i⟩, fun h => absurd h (by decide)⟩
  -- A run of one element.
  have hone : i = j := by
    rw [runEnd, runBegin, levelWidth_zero] at hj
    rw [runBegin, levelWidth_zero] at hi
    omega
  rw [hone]

theorem build_built [Inhabited E] (lowest : List E) : (build lowest).Built (fun i => lowest.getD i default) ∧
      (build lowest).count = lowest.length := by
  have hfold : ∀ levels, ∃ t, t = (range' 1 levels).foldl buildLevel (allocate lowest) ∧
      t.BuiltTo (fun i => lowest.getD i default) levels 0 ∧ t.count = lowest.length ∧
      t.size = levelsAbove lowest.length 1 + 1 := by
    intro levels
    induction levels with
    | zero => exact ⟨_, rfl, allocate_built lowest, rfl, rfl⟩
    | succ levels ih =>
      obtain ⟨t, ht, hbt, hcnt, hsz⟩ := ih
      obtain ⟨hbt', hcnt', hsz'⟩ := hbt.buildLevel
      refine ⟨_, ?_, hbt', hcnt'.trans hcnt, hsz'.trans hsz⟩
      rw [range'_concat, foldl_append, ← ht, Nat.one_mul, Nat.add_comm 1 levels]
      rfl
  obtain ⟨t, ht, hbt, hcnt, hsz⟩ := hfold (levelsAbove lowest.length 1)
  have hbuild : build lowest = t := ht.symm
  rw [hbuild]
  refine ⟨⟨?_, hbt.lowest, fun level hlev => hbt.below level (by omega)⟩, hcnt⟩
  rw [hsz, hcnt]

end MergeSortTree

end WfOpt

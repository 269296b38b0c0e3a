import WfOpt.Window.SegmentTreeBuild

/-!
# Frames of the segment tree

Every frame is evaluated to the product over its rows, in order. The nodes of a level between the ends of a frame
are those of the next level, and those that remain at both sides (`rangeProd_parents`): the ones to the right are
collected on the way up, for functions that depend on the order (`WindowSegmentTree.upperLoop_spec`), and added on
the way down (`WindowSegmentTree.rightLoop_spec`). With an exclusion, the frame is evaluated in two parts
(`WindowSegmentTree.evaluate_naive`).
-/

namespace WfOpt

open Nat Function List

/-! ## Parents -/

section Parents

variable {b e : ℕ}

theorem le_parentBegin : b ≤ parentBegin b * treeFanout := by
  rw [parentBegin, treeFanout]
  split_ifs <;> omega

theorem parentBegin_le (hbe : b ≤ e) (hne : b / treeFanout ≠ e / treeFanout) : parentBegin b ≤ e / treeFanout := by
  rw [parentBegin]
  unfold treeFanout at *
  split <;> omega

theorem parentEnd_le : e / treeFanout * treeFanout ≤ e := div_mul_le_self ..

/-- A range is cut into its nodes of the next level, and what remains on both sides. -/
theorem rangeProd_parents {M : Type*} [Monoid M] {f : ℕ → M} {l : ℕ} (hbe : b ≤ e)
    (hne : b / treeFanout ≠ e / treeFanout) :
    rangeProd (levelProd f treeFanout l) b (parentBegin b * treeFanout) *
        rangeProd (levelProd f treeFanout (l + 1)) (parentBegin b) (e / treeFanout) *
        rangeProd (levelProd f treeFanout l) (e / treeFanout * treeFanout) e =
      rangeProd (levelProd f treeFanout l) b e := by
  have hle := Nat.mul_le_mul_right treeFanout (parentBegin_le hbe hne)
  rw [rangeProd_levelProd_succ, rangeProd_mul_rangeProd le_parentBegin hle,
    rangeProd_mul_rangeProd (le_parentBegin.trans hle) parentEnd_le]

end Parents

namespace WindowSegmentTree

variable {ρ σ τ : Type*} [Monoid σ] {T : WindowSegmentTree ρ σ τ} {p : SegmentTreePart σ}
  {s : StatePtr → σ} {b e l r : ℕ}

/-! ## Levels that are there -/

theorem le_maxLevel (h : treeFanout ^ l ≤ T.collection.count) : l ≤ T.maxLevel := by
  by_contra hlt
  have := calc
    treeFanout ^ l ≤ T.collection.count := h
    _ ≤ levelBlocks T.collection.count T.maxLevel * treeFanout ^ T.maxLevel := le_levelBlocks_mul
    _ ≤ 1 * treeFanout ^ T.maxLevel := Nat.mul_le_mul_right _ levelBlocks_maxLevel
    _ = treeFanout ^ T.maxLevel := Nat.one_mul _
  exact absurd this (Nat.not_le.2 (Nat.pow_lt_pow_right (by decide) (Nat.not_le.1 hlt)))

theorem le_levelBlocks (h : e * treeFanout ^ l ≤ T.collection.count) : e ≤ levelBlocks T.collection.count l :=
  Nat.le_of_mul_le_mul_right (h.trans le_levelBlocks_mul) (Nat.pow_pos (by decide))

theorem parentEnd_mul_le (h : e * treeFanout ^ l ≤ T.collection.count) :
    e / treeFanout * treeFanout ^ (l + 1) ≤ T.collection.count := by
  rw [Nat.pow_succ', ← Nat.mul_assoc]
  exact (Nat.mul_le_mul_right _ parentEnd_le).trans h

theorem succ_le_maxLevel (hbe : b ≤ e) (hne : b / treeFanout ≠ e / treeFanout)
    (h : e * treeFanout ^ l ≤ T.collection.count) : l + 1 ≤ T.maxLevel := by
  refine le_maxLevel ((Nat.le_mul_of_pos_left _ ?_).trans (parentEnd_mul_le h))
  exact (Nat.zero_le _).trans_lt (lt_of_le_of_ne (Nat.div_le_div_right hbe) hne)

theorem BuiltUpTo.mono {k : ℕ} (h : T.BuiltUpTo s l) (hk : k ≤ l) : T.BuiltUpTo s k :=
  fun j hj => h j (hj.trans_le hk)

theorem BuiltUpTo.mulAt {x : σ} (h : T.BuiltUpTo s l) : T.BuiltUpTo (mulAt s (.frame r) x) l := by
  intro j hj i hi
  exact h j hj i hi

theorem Holds.set_rightStack {c : Bool} {stack : ℕ → ℕ × ℕ} (h : T.Holds c p s) :
    T.Holds c { p with rightStack := stack } s := by
  refine ⟨h.queue, ?_, h.cursor⟩
  rw [← h.states, flushStates_eq, flushStates_eq]

theorem Holds.frameValue (h : T.Holds true p s) (hbt : T.BuiltUpTo s T.maxLevel) (hl : 1 ≤ l)
    (hlmax : l ≤ T.maxLevel) (hbe : b ≤ e) (he : e * treeFanout ^ l ≤ T.collection.count) :
    T.Holds true (T.windowSegmentValue p l b e (.frame r))
      (mulAt s (.frame r) (rangeProd (levelProd T.value treeFanout l) b e)) := by
  have hcombining : decide (0 < l) = true := decide_eq_true hl
  have := Holds.windowSegmentValue (t := .frame r) (hcombining.symm ▸ h) (hbt.mono hlmax) hlmax
    hbe (le_levelBlocks he) fun i _ heq => StatePtr.noConfusion heq
  rwa [hcombining] at this

/-! ## The right side -/

variable (T) in
/-- The product of what is on the right side of `n` levels, from `l` on. -/
def rightProd (stack : ℕ → ℕ × ℕ) : ℕ → ℕ → σ
  | 0, _ => 1
  | n + 1, l =>
    rightProd stack n (l + 1) *
      rangeProd (levelProd T.value treeFanout l) (stack l).1 (stack l).2

variable {stack : ℕ → ℕ × ℕ} {n : ℕ}

theorem rightProd_eq_one (h : ∀ j, l ≤ j → stack j = (0, 0)) : T.rightProd stack n l = 1 := by
  induction n generalizing l with
  | zero => rfl
  | succ n ih =>
    rw [rightProd, ih fun j hj => h j (le_of_succ_le hj), h l le_rfl, rangeProd_self, one_mul]

theorem rightProd_congr {stack' : ℕ → ℕ × ℕ} (h : ∀ j, l ≤ j → j < l + n → stack j = stack' j) :
    T.rightProd stack n l = T.rightProd stack' n l := by
  induction n generalizing l with
  | zero => rfl
  | succ n ih =>
    rw [rightProd, rightProd, h l le_rfl (by omega), ih fun j hj hj' => h j (by omega) (by omega)]

/-- The highest level is the first on the right side. -/
theorem rightProd_succ : T.rightProd stack (n + 1) l =
      rangeProd (levelProd T.value treeFanout (l + n)) (stack (l + n)).1 (stack (l + n)).2 *
        T.rightProd stack n l := by
  induction n generalizing l with
  | zero =>
    change 1 * _ = _ * 1
    rw [one_mul, mul_one]
    rfl
  | succ n ih =>
    rw [rightProd, ih, rightProd, mul_assoc, Nat.add_right_comm l 1 n, Nat.add_assoc l n 1]

theorem rightProd_eq_of_le {k : ℕ} (hk : k ≤ n) (h : ∀ j, k < j → stack j = (0, 0)) :
    T.rightProd stack n 1 = T.rightProd stack k 1 := by
  induction n, hk using le_induction with
  | base => rfl
  | succ n hkn ih => rw [rightProd_succ, h (1 + n) (by omega), rangeProd_self, one_mul, ih]

variable (T) in
/-- What can be on the right side: ranges of the levels. -/
def StackInv (stack : ℕ → ℕ × ℕ) : Prop :=
  ∀ j, (stack j).1 ≤ (stack j).2 ∧ (stack j).2 * treeFanout ^ j ≤ T.collection.count

theorem rightStep_spec (h : T.Holds true p s) (hbt : T.BuiltUpTo s T.maxLevel)
    (hstk : T.StackInv p.rightStack) (hl : 1 ≤ l) :
    T.Holds true (T.rightStep p r l) (mulAt s (.frame r)
      (rangeProd (levelProd T.value treeFanout l) (p.rightStack l).1 (p.rightStack l).2)) ∧
    (T.rightStep p r l).rightStack = update p.rightStack l (0, 0) := by
  rw [rightStep]
  obtain ⟨hle, hend⟩ := hstk l
  split_ifs with hz
  · have hlmax : l ≤ T.maxLevel := le_maxLevel ((Nat.le_mul_of_pos_left _ (Nat.pos_of_ne_zero hz)).trans hend)
    exact ⟨(h.frameValue (r := r) hbt hl hlmax hle hend).set_rightStack, rfl⟩
  · obtain ⟨hfst, hsnd⟩ : (p.rightStack l).1 = 0 ∧ (p.rightStack l).2 = 0 := by omega
    constructor
    · rwa [hfst, hsnd, rangeProd_self, mulAt_one]
    · have hent : p.rightStack l = (0, 0) := Prod.ext hfst hsnd
      rw [← hent, update_eq_self]

theorem rightLoop_spec (k : ℕ) (h : T.Holds true p s) (hbt : T.BuiltUpTo s T.maxLevel)
    (hstk : T.StackInv p.rightStack) :
    T.Holds true (T.rightLoop r k p)
      (mulAt s (.frame r) (T.rightProd p.rightStack k 1)) ∧
    ∀ j, (T.rightLoop r k p).rightStack j = if 1 ≤ j ∧ j ≤ k then (0, 0) else p.rightStack j := by
  induction k generalizing p s with
  | zero => exact ⟨by rwa [rightLoop, rightProd, mulAt_one], fun j => (if_neg (by omega)).symm⟩
  | succ k ih =>
    obtain ⟨hhld, hupd⟩ := rightStep_spec (r := r) h hbt hstk (succ_pos k)
    have hoth : ∀ j, j ≠ k + 1 → (T.rightStep p r (k + 1)).rightStack j = p.rightStack j :=
      fun j hj => by rw [hupd, update_of_ne hj]
    have hstk' : T.StackInv (T.rightStep p r (k + 1)).rightStack := by
      intro j
      rw [hupd]
      rcases eq_or_ne j (k + 1) with rfl | hj
      · rw [update_self, Nat.zero_mul]
        exact ⟨le_rfl, Nat.zero_le _⟩
      · rw [update_of_ne hj]
        exact hstk j
    obtain ⟨hrst, hz⟩ := ih hhld hbt.mulAt hstk'
    refine ⟨?_, fun j => ?_⟩
    · rw [mulAt_mulAt, rightProd_congr fun j _ hj => hoth j (by omega)] at hrst
      rwa [rightLoop, rightProd_succ, Nat.add_comm 1 k]
    · rw [rightLoop, hz]
      rcases eq_or_ne j (k + 1) with rfl | hj
      · rw [if_neg (by omega), if_pos (by omega), hupd, update_self]
      · rw [hoth j hj]
        split_ifs <;> first | rfl | omega

/-! ## The way up -/

variable {u : UpperState σ} {m : ℕ}

@[simp] theorem part_markShared : (T.markShared u l b e r).part = u.part := by
  rw [markShared]
  split_ifs <;> rfl

theorem upperValue_of_pos (hl : 1 ≤ l) :
    T.upperValue u l b e r = { u with part := T.windowSegmentValue u.part l b e (.frame r) } :=
  if_pos (Nat.ne_of_gt hl)

omit [Monoid σ] in
theorem shared_of_ne (hl : l ≠ 1) : u.shared l b e = none := if_neg fun h => hl h.1

theorem prev_leftValue : ((T.leftValue u l b r).prevState, (T.leftValue u l b r).prevBegin,
      (T.leftValue u l b r).prevEnd) = (u.prevState, u.prevBegin, u.prevEnd) := by
  rw [leftValue]
  split_ifs
  · rw [upperValue]
    split_ifs <;> rfl
  · rfl

theorem leftValue_spec (h : T.Holds true u.part s) (hbt : T.BuiltUpTo s T.maxLevel) (hl : 1 ≤ l)
    (hlmax : l ≤ T.maxLevel) (he : parentBegin b * treeFanout * treeFanout ^ l ≤ T.collection.count) :
    T.Holds true (T.leftValue u l b r).part (mulAt s (.frame r)
      (rangeProd (levelProd T.value treeFanout l) b (parentBegin b * treeFanout))) ∧
    (T.leftValue u l b r).part.rightStack = u.part.rightStack := by
  rw [leftValue]
  split_ifs with hb
  · rw [upperValue_of_pos hl]
    have hpar : parentBegin b * treeFanout = b / treeFanout * treeFanout + treeFanout := by
      rw [parentBegin, if_pos hb, succ_mul]
    rw [← hpar]
    exact ⟨h.frameValue hbt hl hlmax le_parentBegin he, rightStack_windowSegmentValue⟩
  · have hpar : parentBegin b * treeFanout = b := by
      rw [parentBegin, if_neg hb]
      exact (not_not.1 hb).symm
    rw [hpar, rangeProd_self, mulAt_one]
    exact ⟨h, rfl⟩

variable (T) in
/-- From a level on, the state is multiplied by what is not on the right side. -/
structure UpperSpec (r fuel l b e : ℕ) (u : UpperState σ) (s : StatePtr → σ)
    (res : UpperState σ × ℕ) : Prop where
  holds : ∃ a, T.Holds true res.1.part (mulAt s (.frame r) a) ∧
    a * T.rightProd res.1.part.rightStack fuel l =
      rangeProd (levelProd T.value treeFanout l) b e
  stack : T.StackInv res.1.part.rightStack
  zero : ∀ j, res.2 < j → res.1.part.rightStack j = (0, 0)
  below : ∀ j < l, res.1.part.rightStack j = u.part.rightStack j
  le : res.2 ≤ T.maxLevel
  prev : (res.1.prevState, res.1.prevBegin, res.1.prevEnd) =
    ((T.markShared u l b e r).prevState, (T.markShared u l b e r).prevBegin,
      (T.markShared u l b e r).prevEnd)

/-- The loop from the next level on, after the state was multiplied by `x`, and the product `y` put on the right side. -/
theorem UpperSpec.of_succ {fuel b' e' : ℕ} {w : UpperState σ} {x y : σ} {res : UpperState σ × ℕ}
    (h : T.UpperSpec r fuel (l + 1) b' e' w (mulAt s (.frame r) x) res) (hl : 1 ≤ l)
    (hprev : (w.prevState, w.prevBegin, w.prevEnd) =
      ((T.markShared u l b e r).prevState, (T.markShared u l b e r).prevBegin, (T.markShared u l b e r).prevEnd))
    (hbelow : ∀ j < l, w.part.rightStack j = u.part.rightStack j)
    (hent : rangeProd (levelProd T.value treeFanout l) (w.part.rightStack l).1 (w.part.rightStack l).2 = y)
    (hprod : ∀ a z, a * z = rangeProd (levelProd T.value treeFanout (l + 1)) b' e' →
      x * a * (z * y) = rangeProd (levelProd T.value treeFanout l) b e) :
    T.UpperSpec r (fuel + 1) l b e u s res where
  holds := by
    obtain ⟨a, ha, haz⟩ := h.holds
    refine ⟨x * a, by rwa [mulAt_mulAt] at ha, ?_⟩
    rw [rightProd, h.below l (lt_succ_self l), hent]
    exact hprod a _ haz
  stack := h.stack
  zero := h.zero
  below j hj := (h.below j (hj.trans (lt_succ_self l))).trans (hbelow j hj)
  le := h.le
  prev := by
    rw [h.prev, markShared, if_neg fun hins => by omega]
    exact hprev

theorem upperLoop_spec (fuel : ℕ) (hl : 1 ≤ l) (hlmax : l ≤ T.maxLevel)
    (hfuel : T.maxLevel < l + fuel) (hshared : u.shared l b e = none)
    (h : T.Holds true u.part s) (hbt : T.BuiltUpTo s T.maxLevel)
    (hstk : T.StackInv u.part.rightStack) (hm : m < l)
    (hz : ∀ j, m < j → u.part.rightStack j = (0, 0)) (hbe : b ≤ e)
    (he : e * treeFanout ^ l ≤ T.collection.count) :
    T.UpperSpec r fuel l b e u s (T.upperLoop r fuel l b e m u) := by
  induction fuel generalizing l b e m u s with
  | zero => omega
  | succ fuel ih =>
    rw [upperLoop, hshared]
    obtain ⟨v, hv⟩ : ∃ v, v = T.markShared u l b e r := ⟨_, rfl⟩
    have hpart : v.part = u.part := hv ▸ part_markShared
    rw [← hv]
    by_cases hpar : b / treeFanout = e / treeFanout
    · -- The nodes have the same parent.
      rw [if_pos hpar, upperValue_of_pos hl, hpart]
      have hval := h.frameValue (r := r) hbt hl hlmax hbe he
      refine ⟨⟨_, hval, ?_⟩, ?_, ?_, ?_, hm.le.trans hlmax, ?_⟩
      · rw [rightProd_eq_one fun j hj => ?_, mul_one]
        rw [rightStack_windowSegmentValue]
        exact hz j (hm.trans_le hj)
      iterate 2
        · rwa [rightStack_windowSegmentValue]
      · exact fun j _ => by rw [rightStack_windowSegmentValue]
      · rw [hv]
    rw [if_neg hpar]
    have hle := parentBegin_le hbe hpar
    have hlmax' := succ_le_maxLevel hbe hpar he
    have he' := parentEnd_mul_le he
    obtain ⟨w, hw⟩ : ∃ w, w = T.leftValue v l b r := ⟨_, rfl⟩
    obtain ⟨hhld, hstackw⟩ := leftValue_spec (r := r) (u := v) (b := b) (hpart ▸ h) hbt hl hlmax
      (by
        rw [Nat.mul_assoc, ← Nat.pow_succ']
        exact (Nat.mul_le_mul_right _ hle).trans he')
    have hprev : (w.prevState, w.prevBegin, w.prevEnd) = (v.prevState, v.prevBegin, v.prevEnd) := hw ▸ prev_leftValue
    rw [← hw, hpart] at hstackw
    rw [← hw] at hhld
    rw [← hw]
    have hcut := rangeProd_parents (f := T.value) (l := l) hbe hpar
    have hprevw : (w.prevState, w.prevBegin, w.prevEnd) =
        ((T.markShared u l b e r).prevState, (T.markShared u l b e r).prevBegin,
          (T.markShared u l b e r).prevEnd) := by rw [hprev, hv]
    have hemp : w.part.rightStack l = (0, 0) := by rw [hstackw, hz l hm]
    by_cases hend : e ≠ e / treeFanout * treeFanout ∧ l ≠ 0
    · rw [if_pos hend]
      by_cases hins : T.aggr.orderInsensitive = true
      · -- The order does not matter, so that the right side can be added at once.
        rw [if_pos hins, upperValue_of_pos hl]
        have hrt := hhld.frameValue (r := r) hbt.mulAt hl hlmax (parentEnd_le (e := e)) he
        rw [mulAt_mulAt] at hrt
        refine UpperSpec.of_succ (ih (le_succ_of_le hl) hlmax' (by omega)
          (shared_of_ne (by omega)) hrt hbt.mulAt ?_ (lt_succ_of_lt hm) ?_ hle he')
          hl hprevw ?_ (y := 1) ?_ fun a z haz => ?_
        iterate 2
          · rwa [rightStack_windowSegmentValue, hstackw]
        · exact fun j _ => by rw [rightStack_windowSegmentValue, hstackw]
        · rw [rightStack_windowSegmentValue, hemp, rangeProd_self]
        · rw [← hcut, ← haz, mul_one, mul_assoc, mul_assoc, mul_assoc,
            T.aggr.comm hins (rangeProd _ (e / treeFanout * treeFanout) e)]
      · -- The right side is added later.
        rw [if_neg hins]
        refine UpperSpec.of_succ (ih (le_succ_of_le hl) hlmax' (by omega)
          (shared_of_ne (by omega)) hhld.set_rightStack hbt.mulAt ?_
          (lt_succ_self l) ?_ hle he') hl hprevw ?_ rfl fun a z haz => ?_
        · intro j
          dsimp only
          rcases eq_or_ne j l with rfl | hj
          · rw [update_self]
            exact ⟨parentEnd_le, he⟩
          · rw [update_of_ne hj, hstackw]
            exact hstk j
        · intro j hj
          dsimp only
          rw [update_of_ne (by omega), hstackw]
          exact hz j (hm.trans hj)
        · intro j hj
          dsimp only
          rw [update_of_ne (by omega), hstackw]
        · dsimp only
          rw [update_self, ← hcut, ← haz]
          simp only [mul_assoc]
    · -- There is nothing on the right side.
      have hno : e = e / treeFanout * treeFanout := by
        by_contra hne
        exact hend ⟨hne, by omega⟩
      rw [if_neg hend]
      refine UpperSpec.of_succ (ih (le_succ_of_le hl) hlmax' (by omega)
        (shared_of_ne (by omega)) hhld hbt.mulAt (hstackw ▸ hstk) (lt_succ_of_lt hm)
        (hstackw ▸ hz) hle he') hl hprevw (fun j _ => by rw [hstackw]) (y := 1) ?_
        fun a z haz => ?_
      · rw [hemp, rangeProd_self]
      · rw [← hcut, ← haz, mul_one, ← hno, rangeProd_self, mul_one, mul_assoc]

/-! ## Upper levels of a frame -/

variable (T) in
/-- What the upper levels contribute to a frame. -/
def upperProd (b e : ℕ) : σ := if e ≤ b ∨ b / treeFanout = e / treeFanout then 1
  else rangeProd (levelProd T.value treeFanout 1) (parentBegin b) (e / treeFanout)

variable (T) in
/-- What holds between the frames: the right side is empty, and the state that is shared is
    that of a frame before. -/
structure UpperInv (u : UpperState σ) (s : StatePtr → σ) (r : ℕ) : Prop where
  holds : T.Holds true u.part s
  built : T.BuiltUpTo s T.maxLevel
  stack : u.part.rightStack = fun _ => (0, 0)
  prev : ∀ r', u.prevState = some r' → T.aggr.orderInsensitive = true ∧ r' < r ∧
    s (.frame r') = rangeProd (levelProd T.value treeFanout 1) u.prevBegin u.prevEnd

theorem UpperInv.stackInv (h : T.UpperInv u s r) : T.StackInv u.part.rightStack := by
  intro j
  rw [h.stack, Nat.zero_mul]
  exact ⟨le_rfl, Nat.zero_le _⟩

/-- The loop over the levels, from level 1 on, and the one over the right side. -/
theorem UpperInv.loops (h : T.UpperInv u s r) (hinit : T.aggr.orderInsensitive = true → s (.frame r) = 1)
    (hmax : 1 ≤ T.maxLevel) (hbe : b ≤ e) (he : e * treeFanout ^ 1 ≤ T.collection.count) :
    T.UpperInv
      { (T.upperLoop r (T.maxLevel + 1) 1 b e 0 u).1 with
        part := T.rightLoop r (T.upperLoop r (T.maxLevel + 1) 1 b e 0 u).2
          (T.upperLoop r (T.maxLevel + 1) 1 b e 0 u).1.part }
      (mulAt s (.frame r) (rangeProd (levelProd T.value treeFanout 1) b e)) (r + 1) := by
  have hfrm : ∀ {x : σ} {r' : ℕ}, r' < r → mulAt s (.frame r) x (.frame r') = s (.frame r') :=
    fun hr' => mulAt_of_ne fun heq => by
      rw [StatePtr.frame.injEq] at heq
      omega
  cases hshared : u.shared 1 b e with
  | some prev =>
    -- The state is that of the frame before.
    rw [upperLoop, hshared]
    have hcond : b = u.prevBegin ∧ e = u.prevEnd ∧ u.prevState = some prev := by
      rw [UpperState.shared] at hshared
      split_ifs at hshared with hc
      exact ⟨hc.2.1, hc.2.2, hshared⟩
    obtain ⟨hb, hend, hprev⟩ := hcond
    obtain ⟨hins, hlt, hstate⟩ := h.prev prev hprev
    rw [hb, hend, ← hstate]
    refine ⟨h.holds.pushNode _, h.built.mulAt, rightStack_pushNode.trans h.stack, fun r' hr' => ?_⟩
    obtain ⟨-, hlt', hstate'⟩ := h.prev r' hr'
    exact ⟨hins, hlt'.trans (lt_succ_self r), (hfrm hlt').trans hstate'⟩
  | none =>
    have hspec := upperLoop_spec (r := r) (T.maxLevel + 1) le_rfl hmax (by omega) hshared h.holds
      h.built h.stackInv Nat.zero_lt_one (fun j _ => by rw [h.stack]) hbe he
    obtain ⟨a, ha, hprod⟩ := hspec.holds
    obtain ⟨hrt, hz⟩ := rightLoop_spec (r := r) (T.upperLoop r (T.maxLevel + 1) 1 b e 0 u).2 ha
      h.built.mulAt hspec.stack
    rw [mulAt_mulAt, ← rightProd_eq_of_le (hspec.le.trans (le_succ _)) hspec.zero, hprod] at hrt
    refine ⟨hrt, h.built.mulAt, funext fun j => ?_, fun r' hr' => ?_⟩
    · rw [hz]
      split_ifs with hj
      · rfl
      · rcases Nat.eq_zero_or_pos j with rfl | hpos
        · rw [hspec.below 0 Nat.zero_lt_one, h.stack]
        · exact hspec.zero j (by omega)
    · obtain ⟨hprevState, hprevBegin, hprevEnd⟩ := Prod.mk.inj hspec.prev |>.imp_right Prod.mk.inj
      rw [hprevState] at hr'
      rw [hprevBegin, hprevEnd]
      rw [markShared] at hr' ⊢
      split_ifs at hr' ⊢ with hins
      · -- The frame itself is shared from now on.
        obtain rfl : r = r' := Option.some_inj.1 hr'
        exact ⟨hins.1, lt_succ_self r, by rw [mulAt_self, hinit hins.1, one_mul]⟩
      · obtain ⟨hins', hlt, hstate⟩ := h.prev r' hr'
        exact ⟨hins', hlt.trans (lt_succ_self r), (hfrm hlt).trans hstate⟩

/-- The loop over the levels skips level 0. -/
theorem upperLoop_zero {fuel : ℕ} : T.upperLoop r (fuel + 1) 0 b e m u =
      if b / treeFanout = e / treeFanout then (u, m)
      else T.upperLoop r fuel 1 (parentBegin b) (e / treeFanout) m u := by
  have hval : ∀ b e, T.upperValue u 0 b e r = u := fun b e => if_neg (by simp)
  have hlft : T.leftValue u 0 b r = u := by
    exact ite_self u
  have hmark : T.markShared u 0 b e r = u := if_neg (by simp)
  rw [upperLoop, shared_of_ne Nat.zero_ne_one]
  dsimp only
  rw [hmark, hval, hlft, if_neg (by simp : ¬(e ≠ e / treeFanout * treeFanout ∧ 0 ≠ 0))]

variable {begins ends bounds : ℕ → ℕ} {framePart : FramePart} {rowIdx count : ℕ}

theorem UpperInv.frame (h : T.UpperInv u s r) (hinit : T.aggr.orderInsensitive = true → s (.frame r) = 1)
    (he : T.partEnd ends bounds framePart r (rowIdx + r) ≤ T.collection.count) :
    T.UpperInv (T.upperFrame begins ends bounds framePart rowIdx u r)
      (mulAt s (.frame r) (T.upperProd (T.partBegin begins bounds framePart r (rowIdx + r))
        (T.partEnd ends bounds framePart r (rowIdx + r)))) (r + 1) := by
  rw [upperFrame]
  obtain ⟨b, hb⟩ : ∃ b, b = T.partBegin begins bounds framePart r (rowIdx + r) := ⟨_, rfl⟩
  obtain ⟨e, he'⟩ : ∃ e, e = T.partEnd ends bounds framePart r (rowIdx + r) := ⟨_, rfl⟩
  rw [← he'] at he
  rw [← hb, ← he', levelsFlatStart_length, upperLoop_zero, upperProd]
  have hsm : T.UpperInv u (mulAt s (.frame r) 1) (r + 1) := by
    rw [mulAt_one]
    refine ⟨h.holds, h.built, h.stack, fun r' hr' => ?_⟩
    obtain ⟨hins, hlt, hstate⟩ := h.prev r' hr'
    exact ⟨hins, hlt.trans (lt_succ_self r), hstate⟩
  by_cases hemp : e ≤ b
  · rwa [if_pos hemp, if_pos (Or.inl hemp)]
  by_cases hpar : b / treeFanout = e / treeFanout
  · rwa [if_neg hemp, if_pos hpar, if_pos (Or.inr hpar)]
  · have hbe : b ≤ e := (Nat.not_le.1 hemp).le
    have he₀ : e * treeFanout ^ 0 ≤ T.collection.count := (Nat.mul_one e).le.trans he
    rw [if_neg hemp, if_neg (not_or.2 ⟨hemp, hpar⟩), if_neg hpar]
    exact h.loops hinit (succ_le_maxLevel hbe hpar he₀) (parentBegin_le hbe hpar)
      (parentEnd_mul_le he₀)

/-! ## All frames -/

/-- The states of the first `k` frames are multiplied. -/
def mulFrames (s : StatePtr → σ) (v : ℕ → σ) (k : ℕ) : StatePtr → σ
  | .node i => s (.node i)
  | .frame r => if r < k then s (.frame r) * v r else s (.frame r)

variable {v w : ℕ → σ} {k : ℕ}

theorem mulFrames_zero : mulFrames s v 0 = s := by
  funext ptr
  cases ptr with
  | node i => rfl
  | frame r => rw [mulFrames, if_neg (Nat.not_lt_zero r)]

theorem mulFrames_succ : mulAt (mulFrames s v k) (.frame k) (v k) = mulFrames s v (k + 1) := by
  funext ptr
  cases ptr with
  | node i => exact mulAt_of_ne fun heq => StatePtr.noConfusion heq
  | frame r =>
    simp only [mulAt, mulFrames, StatePtr.frame.injEq]
    rcases lt_trichotomy r k with hlt | rfl | hgt
    · rw [if_neg hlt.ne, if_pos hlt, if_pos (hlt.trans (lt_succ_self k))]
    · rw [if_pos rfl, if_neg (Nat.lt_irrefl r), if_pos (lt_succ_self r)]
    · rw [if_neg hgt.ne', if_neg hgt.not_gt, if_neg (by omega)]

theorem mulFrames_mulFrames : mulFrames (mulFrames s v k) w k = mulFrames s (fun r => v r * w r) k := by
  funext ptr
  cases ptr with
  | node i => rfl
  | frame r =>
    simp only [mulFrames]
    split_ifs
    · exact mul_assoc ..
    · rfl

variable (T) in
/-- A part between its calls: nothing is queued, and the tree is that which was built. -/
structure Ready (p : SegmentTreePart σ) (s : StatePtr → σ) : Prop where
  leaves : p.leaves = []
  nodes : p.nodes = []
  cursor : p.cursor.chunkIndex ≤ T.collection.chunks.length
  states : p.states = s
  built : T.BuiltUpTo s T.maxLevel
  stack : p.rightStack = fun _ => (0, 0)

theorem Ready.holds {c : Bool} (h : T.Ready p s) : T.Holds c p s :=
  h.states ▸ holds_of_empty h.leaves h.nodes h.cursor

theorem Holds.ready {c : Bool} (h : T.Holds c p s) (hbt : T.BuiltUpTo s T.maxLevel)
    (hstk : p.rightStack = fun _ => (0, 0)) : T.Ready (T.flushStates p c) s :=
  ⟨leaves_flushStates, nodes_flushStates, (h.flush c).cursor, h.states, hbt, rightStack_flushStates.trans hstk⟩

variable (begins) in
theorem Ready.evaluateUpperLevels (h : T.Ready p s)
    (hinit : T.aggr.orderInsensitive = true → ∀ r < count, s (.frame r) = 1)
    (he : ∀ r < count, T.partEnd ends bounds framePart r (rowIdx + r) ≤ T.collection.count) :
    T.Ready (T.evaluateUpperLevels p begins ends bounds framePart count rowIdx)
      (mulFrames s (fun r => T.upperProd (T.partBegin begins bounds framePart r (rowIdx + r))
        (T.partEnd ends bounds framePart r (rowIdx + r))) count) := by
  -- The invariant, after the first `k` frames.
  have hloop : ∀ k ≤ count, T.UpperInv
      ((range k).foldl (T.upperFrame begins ends bounds framePart rowIdx) ⟨p, none, 1, 0⟩)
      (WindowSegmentTree.mulFrames s (fun r => T.upperProd
        (T.partBegin begins bounds framePart r (rowIdx + r))
        (T.partEnd ends bounds framePart r (rowIdx + r))) k) k := by
    intro k hk
    induction k with
    | zero =>
      rw [mulFrames_zero]
      exact ⟨h.holds, h.built, h.stack, fun r' hr' => absurd hr' (by simp)⟩
    | succ k ih =>
      rw [range_succ, foldl_append, ← mulFrames_succ]
      refine (ih (le_of_succ_le hk)).frame (fun hins => ?_) (he k hk)
      rw [WindowSegmentTree.mulFrames, if_neg (Nat.lt_irrefl k)]
      exact hinit hins k hk
  have hall := hloop count le_rfl
  exact hall.holds.ready hall.built hall.stack

/-! ## Leaves -/

variable (T) in
/-- What the leaves on the left side of a frame contribute. -/
def leftProd (b e : ℕ) : σ := if e ≤ b then 1
  else if b / treeFanout = e / treeFanout then rangeProd T.value b e
  else rangeProd T.value b (parentBegin b * treeFanout)

variable (T) in
/-- What the leaves on the right side of a frame contribute. -/
def rightLeafProd (b e : ℕ) : σ := if e ≤ b ∨ b / treeFanout = e / treeFanout then 1
  else rangeProd T.value (e / treeFanout * treeFanout) e

/-- The leaves and the upper levels have the rows of the frame. -/
theorem leftProd_mul_upperProd : T.leftProd b e * T.upperProd b e * T.rightLeafProd b e = rangeProd T.value b e := by
  rw [leftProd, upperProd, rightLeafProd]
  by_cases hemp : e ≤ b
  · rw [if_pos hemp, if_pos (Or.inl hemp), if_pos (Or.inl hemp), rangeProd_of_le hemp, one_mul, one_mul]
  by_cases hpar : b / treeFanout = e / treeFanout
  · rw [if_neg hemp, if_pos hpar, if_pos (Or.inr hpar), if_pos (Or.inr hpar), mul_one, mul_one]
  · have hcut := rangeProd_parents (f := T.value) (l := 0) (Nat.not_le.1 hemp).le hpar
    rw [levelProd_zero] at hcut
    rw [if_neg hemp, if_neg hpar, if_neg (not_or.2 ⟨hemp, hpar⟩), if_neg (not_or.2 ⟨hemp, hpar⟩)]
    exact hcut

variable (T) in
/-- The current row, where it is added to the part of the frame behind the ties. -/
def currProd (begins ends bounds : ℕ → ℕ) (framePart : FramePart) (r curRow : ℕ) : σ :=
  if (framePart = .right ∧ T.excludeMode = .ties) ∧ frameBegins begins bounds framePart r ≤ curRow ∧
      curRow < frameEnds ends bounds framePart r then T.value curRow
  else 1

variable (T) in
/-- What the leaves contribute to a frame. -/
def leavesProd (begins ends bounds : ℕ → ℕ) (framePart leafPart : FramePart) (r curRow : ℕ) : σ :=
  (if leafPart ≠ .right then T.currProd begins ends bounds framePart r curRow *
    T.leftProd (T.partBegin begins bounds framePart r curRow) (T.partEnd ends bounds framePart r curRow)
  else 1) *
  (if leafPart ≠ .left then T.rightLeafProd (T.partBegin begins bounds framePart r curRow)
    (T.partEnd ends bounds framePart r curRow)
  else 1)

theorem Holds.leafValue (h : T.Holds false p s) (hbe : b ≤ e) (he : e ≤ T.collection.count) :
    T.Holds false (T.windowSegmentValue p 0 b e (.frame r))
      (mulAt s (.frame r) (rangeProd T.value b e)) := by
  have := Holds.windowSegmentValue (l := 0) (t := .frame r) h
    (fun _ hj => absurd hj (Nat.not_lt_zero _)) (Nat.zero_le _) hbe he
    fun i _ heq => StatePtr.noConfusion heq
  rwa [levelProd_zero] at this

theorem Holds.leafValue_if {c : Prop} [Decidable c] (h : T.Holds false p s) (hbe : c → b ≤ e)
    (he : c → e ≤ T.collection.count) :
    T.Holds false (if c then T.windowSegmentValue p 0 b e (.frame r) else p)
      (mulAt s (.frame r) (if c then rangeProd T.value b e else 1)) := by
  split_ifs with hc
  · exact h.leafValue (hbe hc) (he hc)
  · rwa [mulAt_one]

theorem Holds.leavesFrame {leafPart : FramePart} (h : T.Holds false p s)
    (he : T.partEnd ends bounds framePart r (rowIdx + r) ≤ T.collection.count)
    (hfrm : frameEnds ends bounds framePart r ≤ T.collection.count) :
    T.Holds false (T.leavesFrame begins ends bounds framePart rowIdx leafPart p r)
      (mulAt s (.frame r) (T.leavesProd begins ends bounds framePart leafPart r (rowIdx + r))) := by
  rw [WindowSegmentTree.leavesFrame, leavesProd]
  obtain ⟨b, hb⟩ : ∃ b, b = T.partBegin begins bounds framePart r (rowIdx + r) := ⟨_, rfl⟩
  obtain ⟨e, he'⟩ : ∃ e, e = T.partEnd ends bounds framePart r (rowIdx + r) := ⟨_, rfl⟩
  rw [← he'] at he
  rw [← hb, ← he']
  -- The current row is added first.
  have hcurr := h.leafValue_if (r := r) (b := rowIdx + r) (e := rowIdx + r + 1)
    (c := (leafPart ≠ .right ∧ framePart = .right ∧ T.excludeMode = .ties) ∧
      frameBegins begins bounds framePart r ≤ rowIdx + r ∧ rowIdx + r < frameEnds ends bounds framePart r)
    (fun _ => le_succ _) fun hc => succ_le_of_lt (hc.2.2.trans_le hfrm)
  have hcurrProd : (if (leafPart ≠ .right ∧ framePart = .right ∧ T.excludeMode = .ties) ∧
      frameBegins begins bounds framePart r ≤ rowIdx + r ∧ rowIdx + r < frameEnds ends bounds framePart r then
      rangeProd T.value (rowIdx + r) (rowIdx + r + 1) else 1) =
      if leafPart ≠ .right then T.currProd begins ends bounds framePart r (rowIdx + r) else 1 := by
    rw [rangeProd_single, currProd]
    by_cases hlft : leafPart = .right <;> simp [hlft]
  rw [hcurrProd] at hcurr
  obtain ⟨q, hq⟩ : ∃ q, q = (if (leafPart ≠ .right ∧ framePart = .right ∧ T.excludeMode = .ties) ∧
      frameBegins begins bounds framePart r ≤ rowIdx + r ∧ rowIdx + r < frameEnds ends bounds framePart r then
      T.windowSegmentValue p 0 (rowIdx + r) (rowIdx + r + 1) (.frame r) else p) := ⟨_, rfl⟩
  rw [← hq] at hcurr
  rw [← hq, leftProd, rightLeafProd]
  by_cases hemp : e ≤ b
  · rw [if_pos hemp, if_pos hemp, if_pos (Or.inl hemp), mul_one, ite_self, mul_one]
    exact hcurr
  have hbe : b ≤ e := (Nat.not_le.1 hemp).le
  by_cases hpar : b / treeFanout = e / treeFanout
  · rw [if_neg hemp, if_pos hpar, if_neg hemp, if_pos hpar, if_pos (Or.inr hpar), ite_self, mul_one]
    have := hcurr.leafValue_if (r := r) (c := leafPart ≠ .right) (fun _ => hbe) fun _ => he
    rw [mulAt_mulAt] at this
    split_ifs at this ⊢
    · exact this
    · rwa [one_mul] at this
  · have hle := Nat.mul_le_mul_right treeFanout (parentBegin_le hbe hpar)
    rw [if_neg hemp, if_neg hpar, if_neg hemp, if_neg hpar, if_neg (not_or.2 ⟨hemp, hpar⟩)]
    have hparentBegin : b ≠ b / treeFanout * treeFanout →
        b / treeFanout * treeFanout + treeFanout = parentBegin b * treeFanout := fun hne => by
      rw [parentBegin, if_pos hne, succ_mul]
    have hlft := hcurr.leafValue_if (r := r) (b := b) (e := b / treeFanout * treeFanout + treeFanout)
      (c := b ≠ b / treeFanout * treeFanout ∧ leafPart ≠ .right)
      (fun hc => by rw [hparentBegin hc.1]; exact le_parentBegin)
      fun hc => by rw [hparentBegin hc.1]; exact hle.trans (parentEnd_le.trans he)
    have hleftProd : (if b ≠ b / treeFanout * treeFanout ∧ leafPart ≠ .right then
        rangeProd T.value b (b / treeFanout * treeFanout + treeFanout) else 1) =
        if leafPart ≠ .right then rangeProd T.value b (parentBegin b * treeFanout) else 1 := by
      by_cases hne : b ≠ b / treeFanout * treeFanout
      · rw [hparentBegin hne]
        simp only [hne, ne_eq, not_false_eq_true, true_and]
      · -- There are no leaves on the left side.
        have hb' : parentBegin b * treeFanout = b := by
          rw [parentBegin, if_neg hne]
          exact (not_not.1 hne).symm
        rw [if_neg fun hc => hne hc.1, hb', rangeProd_self, ite_self]
    have hrt := hlft.leafValue_if (r := r) (b := e / treeFanout * treeFanout) (e := e)
      (c := e ≠ e / treeFanout * treeFanout ∧ leafPart ≠ .left) (fun _ => parentEnd_le) fun _ => he
    have hrightProd : (if e ≠ e / treeFanout * treeFanout ∧ leafPart ≠ .left then
        rangeProd T.value (e / treeFanout * treeFanout) e else 1) =
        if leafPart ≠ .left then rangeProd T.value (e / treeFanout * treeFanout) e else 1 := by
      by_cases hne : e ≠ e / treeFanout * treeFanout
      · simp only [hne, ne_eq, not_false_eq_true, true_and]
      · rw [if_neg fun hc => hne hc.1, ← not_not.1 hne, rangeProd_self, ite_self]
    rw [hleftProd, hrightProd, mulAt_mulAt, mulAt_mulAt] at hrt
    rwa [← mul_assoc, ite_mul_ite, mul_one] at hrt

theorem rightStack_leavesFrame {leafPart : FramePart} :
    (T.leavesFrame begins ends bounds framePart rowIdx leafPart p r).rightStack = p.rightStack := by
  rw [leavesFrame]
  dsimp only
  split_ifs <;> simp

variable (begins) in
theorem Ready.evaluateLeaves (leafPart : FramePart) (h : T.Ready p s)
    (he : ∀ r < count, T.partEnd ends bounds framePart r (rowIdx + r) ≤ T.collection.count)
    (hfrm : ∀ r < count, frameEnds ends bounds framePart r ≤ T.collection.count) :
    T.Ready (T.evaluateLeaves p begins ends bounds framePart count rowIdx leafPart)
      (mulFrames s (fun r => T.leavesProd begins ends bounds framePart leafPart r (rowIdx + r)) count) := by
  have hloop : ∀ k ≤ count, T.Holds false ((range k).foldl
        (T.leavesFrame begins ends bounds framePart rowIdx leafPart) p)
        (mulFrames s (fun r => T.leavesProd begins ends bounds framePart leafPart r (rowIdx + r)) k) ∧
      ((range k).foldl (T.leavesFrame begins ends bounds framePart rowIdx leafPart)
        p).rightStack = p.rightStack := by
    intro k hk
    induction k with
    | zero =>
      rw [mulFrames_zero]
      exact ⟨h.holds, rfl⟩
    | succ k ih =>
      obtain ⟨ihholds, ihstack⟩ := ih (le_of_succ_le hk)
      rw [range_succ, foldl_append, ← mulFrames_succ]
      exact ⟨ihholds.leavesFrame (he k hk) (hfrm k hk), rightStack_leavesFrame.trans ihstack⟩
  obtain ⟨hhld, hstk⟩ := hloop count le_rfl
  exact hhld.ready h.built (hstk.trans h.stack)

/-! ## Parts -/

theorem Ready.initializeStates (h : T.Ready p s) (count : ℕ) :
    ∃ s', T.Ready (initializeStates p count) s' ∧ ∀ r < count, s' (.frame r) = 1 := by
  refine ⟨_, ⟨h.leaves, h.nodes, h.cursor, rfl, ?_, h.stack⟩, fun r hr => if_pos hr⟩
  intro l hl i hi
  exact (congrFun h.states _).trans (h.built l hl i hi)

variable (begins ends bounds framePart rowIdx) in
theorem Ready.evaluatePart (h : T.Ready p s)
    (hfrm : ∀ r < count, frameEnds ends bounds framePart r ≤ T.collection.count) :
    ∃ s', T.Ready (T.evaluatePart p begins ends bounds framePart count rowIdx) s' ∧
      ∀ r < count, s' (.frame r) = T.currProd begins ends bounds framePart r (rowIdx + r) *
          rangeProd T.value (T.partBegin begins bounds framePart r (rowIdx + r))
            (T.partEnd ends bounds framePart r (rowIdx + r)) := by
  obtain ⟨s₀, hs₀, hone⟩ := h.initializeStates count
  have he : ∀ r < count, T.partEnd ends bounds framePart r (rowIdx + r) ≤ T.collection.count :=
    fun r hr => (min_le_right ..).trans (hfrm r hr)
  rw [WindowSegmentTree.evaluatePart]
  dsimp only
  split_ifs with hins
  · have hup := hs₀.evaluateUpperLevels begins (fun _ => hone) he
    refine ⟨_, hup.evaluateLeaves begins .full he hfrm, fun r hr => ?_⟩
    rw [mulFrames_mulFrames, mulFrames, if_pos hr, hone r hr, one_mul, leavesProd,
      if_pos (by decide), if_pos (by decide), ← leftProd_mul_upperProd, T.aggr.comm hins]
    simp only [mul_assoc]
    rw [T.aggr.comm hins (T.rightLeafProd _ _)]
  · have hlft := hs₀.evaluateLeaves begins .left he hfrm
    have hup := hlft.evaluateUpperLevels begins (fun hc => absurd hc hins) he
    refine ⟨_, hup.evaluateLeaves begins .right he hfrm, fun r hr => ?_⟩
    rw [mulFrames_mulFrames, mulFrames_mulFrames, mulFrames, if_pos hr, hone r hr, one_mul,
      leavesProd, leavesProd, if_pos (by decide), if_neg (by decide), if_neg (by decide),
      if_pos (by decide), ← leftProd_mul_upperProd, mul_one, one_mul]
    simp only [mul_assoc]

/-! ## Exclusion -/

variable (T) in
/-- A row is left out of the frame of a row. -/
def excluded (bounds : WindowBounds) (curRow i : ℕ) : Bool := match T.excludeMode with
  | .noOther => false
  | .currentRow => i = curRow
  | .group => bounds.peerBegin ≤ i && i < bounds.peerEnd
  | .ties => bounds.peerBegin ≤ i && i < bounds.peerEnd && i ≠ curRow

variable (T) in
/-- The aggregate of the rows of the frame that pass the filter and are not excluded, in order. -/
def naive (bounds : WindowBounds) (curRow : ℕ) : τ :=
  T.aggr.finalize (((range' bounds.frameBegin (bounds.frameEnd - bounds.frameBegin)).filter
    fun i => T.passes i && !T.excluded bounds curRow i).map fun i => T.aggr.rowState (T.row i)).prod

variable (T) in
/-- What a row contributes, if it is not excluded. -/
def included (bounds : WindowBounds) (curRow i : ℕ) : σ := if T.excluded bounds curRow i then 1 else T.value i

theorem naive_eq {bounds : WindowBounds} {curRow : ℕ} (h : bounds.frameEnd ≤ T.collection.count) :
    T.naive bounds curRow = T.aggr.finalize
      (rangeProd (T.included bounds curRow) bounds.frameBegin bounds.frameEnd) := by
  rw [naive, prod_filter_range']
  refine congrArg _ (rangeProd_congr fun i _ hi => ?_)
  rw [included, value]
  cases T.passes i <;> cases T.excluded bounds curRow i <;> simp [hi.trans_le h]

/-- Two parts around what is excluded, with the current row if only its ties are. -/
theorem rangeProd_included {bounds : WindowBounds} {curRow x y : ℕ} (hxy : x ≤ curRow)
    (hy : curRow < y) (hmid : ∀ i, x ≤ i → i < y → i ≠ curRow → T.excluded bounds curRow i = true)
    (hout : ∀ i, i < x ∨ y ≤ i → T.excluded bounds curRow i = false) :
    rangeProd T.value bounds.frameBegin (min x bounds.frameEnd) *
      ((if bounds.frameBegin ≤ curRow ∧ curRow < bounds.frameEnd then
          T.included bounds curRow curRow else 1) *
        rangeProd T.value (max y bounds.frameBegin) bounds.frameEnd) =
      rangeProd (T.included bounds curRow) bounds.frameBegin bounds.frameEnd := by
  have hincluded : ∀ i, i < x ∨ y ≤ i → T.value i = T.included bounds curRow i := fun i hi => by
    rw [included, hout i hi]
    rfl
  rw [← rangeProd_around (hxy.trans hy.le) hincluded, mul_assoc]
  refine congrArg _ (congrArg (· * _) ?_)
  -- Of the middle, only the current row can be included.
  obtain ⟨f, hf⟩ : ∃ f : ℕ → σ, f = fun i => if i = curRow then T.included bounds curRow i else 1 := ⟨_, rfl⟩
  rw [rangeProd_congr (g := f) fun i hi hi' => ?_, rangeProd_eq_ite (i := curRow) fun j hj => ?_, hf]
  · dsimp only
    rw [if_pos rfl]
    refine if_congr ?_ rfl rfl
    omega
  · rw [hf]
    exact if_neg hj
  · rw [hf]
    dsimp only
    split_ifs with heq
    · rfl
    · rw [included, hmid i (by omega) (by omega) heq]
      rfl

/-! ## Chunks -/

theorem ready_newPart : T.Ready (newPart T.finalize) (newPart T.finalize).states where
  leaves := rfl
  nodes := rfl
  cursor := Nat.zero_le _
  states := rfl
  built := finalize_built
  stack := rfl

variable (T) in
/-- The parts of a thread are between their calls. -/
structure LocalReady (lstate : SegmentTreeLocal σ) (tree : ℕ → σ := T.finalize) : Prop where
  part : ∃ s, T.Ready (lstate.part.getD (newPart tree)) s
  rightPart : ∃ s, T.Ready (lstate.rightPart.getD (newPart tree)) s

theorem frameEnd_le (chunk : BoundsChunk T.collection.count) :
    ∀ r < chunk.bounds.length, (chunk.bounds.getD r default).frameEnd ≤ T.collection.count := by
  intro r hr
  rw [getD_eq_getElem _ _ hr]
  exact chunk.frameEnd_le _ (getElem_mem hr)

theorem parts_mul {chunk : BoundsChunk T.collection.count} (hmode : T.excludeMode ≠ .noOther)
    (hr : r < chunk.bounds.length) {windowBegin windowEnd left right : ℕ → ℕ}
    (hbeg : windowBegin = fun r => (chunk.bounds.getD r default).frameBegin)
    (hend : windowEnd = fun r => (chunk.bounds.getD r default).frameEnd)
    (hlft : T.excludeMode ≠ .currentRow → left r = (chunk.bounds.getD r default).peerBegin)
    (hrt : T.excludeMode ≠ .currentRow → right r = (chunk.bounds.getD r default).peerEnd) :
    T.currProd windowBegin left windowEnd .left r (chunk.rowIdx + r) *
        rangeProd T.value (T.partBegin windowBegin windowEnd .left r (chunk.rowIdx + r))
          (T.partEnd left windowEnd .left r (chunk.rowIdx + r)) *
      (T.currProd right windowEnd windowBegin .right r (chunk.rowIdx + r) *
        rangeProd T.value (T.partBegin right windowBegin .right r (chunk.rowIdx + r))
          (T.partEnd windowEnd windowBegin .right r (chunk.rowIdx + r))) =
      rangeProd (T.included (chunk.bounds.getD r default) (chunk.rowIdx + r))
        (chunk.bounds.getD r default).frameBegin (chunk.bounds.getD r default).frameEnd := by
  obtain ⟨hpeerBegin, hpeerEnd⟩ := chunk.peers r hr
  simp only [currProd, partBegin, partEnd, frameBegins, frameEnds, hbeg, hend, max_self, min_self,
    reduceCtorEq, false_and, true_and, if_false, if_true, one_mul]
  generalize chunk.bounds.getD r default = bounds at *
  cases hcs : T.excludeMode with
  | noOther => exact absurd hcs hmode
  | currentRow =>
    rw [← rangeProd_included (le_refl (chunk.rowIdx + r)) (lt_succ_self (chunk.rowIdx + r))
      (fun i hi hi' hne => absurd hne (by omega)) fun i hi => ?_]
    · simp [included, excluded, hcs]
    · simp only [excluded, hcs, decide_eq_false_iff_not]
      omega
  | group =>
    rw [hlft (by rw [hcs]; decide), hrt (by rw [hcs]; decide),
      ← rangeProd_included hpeerBegin hpeerEnd (fun i hi hi' _ => ?_) fun i hi => ?_]
    · simp [included, excluded, hcs, hpeerBegin, hpeerEnd]
    · simp only [excluded, hcs, Bool.and_eq_true, decide_eq_true_iff]
      exact ⟨hi, hi'⟩
    · simp only [excluded, hcs, Bool.and_eq_false_iff, decide_eq_false_iff_not]
      omega
  | ties =>
    rw [hlft (by rw [hcs]; decide), hrt (by rw [hcs]; decide),
      ← rangeProd_included hpeerBegin hpeerEnd (fun i hi hi' hne => ?_) fun i hi => ?_]
    · simp [included, excluded, hcs]
    · simp [excluded, hcs, hi, hi', hne]
    · simp only [excluded, hcs, Bool.and_eq_false_iff, decide_eq_false_iff_not]
      omega

theorem evaluate_naive {tree : ℕ → σ} {lstate : SegmentTreeLocal σ} (h : T.LocalReady lstate tree)
    (chunk : BoundsChunk T.collection.count) :
    (T.evaluate tree lstate chunk).1 = ((List.range chunk.bounds.length).map fun r =>
      T.naive (chunk.bounds.getD r default) (chunk.rowIdx + r)) ∧
    T.LocalReady (T.evaluate tree lstate chunk).2 tree := by
  obtain ⟨s, hs⟩ := h.part
  obtain ⟨s', hs'⟩ := h.rightPart
  rw [evaluate]
  dsimp only
  by_cases hmode : T.excludeMode ≠ .noOther
  · obtain ⟨s₁, hs₁, hlft⟩ := hs.evaluatePart
      (fun r => (chunk.bounds.getD r default).frameBegin)
      (if T.excludeMode = .currentRow then fun r => (chunk.bounds.getD r default).peerEnd
        else fun r => (chunk.bounds.getD r default).peerBegin)
      (fun r => (chunk.bounds.getD r default).frameEnd) .left chunk.rowIdx (frameEnd_le chunk)
    obtain ⟨s₂, hs₂, hrt⟩ := hs'.evaluatePart
      (if T.excludeMode = .currentRow then fun r => (chunk.bounds.getD r default).peerBegin
        else fun r => (chunk.bounds.getD r default).peerEnd)
      (fun r => (chunk.bounds.getD r default).frameEnd)
      (fun r => (chunk.bounds.getD r default).frameBegin) .right chunk.rowIdx (frameEnd_le chunk)
    rw [if_pos hmode]
    refine ⟨map_congr_left fun r hr => ?_, ⟨⟨_, hs₁.leaves, hs₁.nodes, hs₁.cursor, rfl, ?_, hs₁.stack⟩, ⟨s₂, hs₂⟩⟩⟩
    · have hr := mem_range.1 hr
      rw [if_pos hr, hs₁.states, hs₂.states, hlft r hr, hrt r hr, naive_eq (frameEnd_le chunk r hr),
        parts_mul hmode hr rfl rfl (fun hcurr => by rw [if_neg hcurr])
          (fun hcurr => by rw [if_neg hcurr])]
    · intro l hl i hi
      exact (congrFun hs₁.states _).trans (hs₁.built l hl i hi)
  · have hno : T.excludeMode = .noOther := not_not.1 hmode
    obtain ⟨s₁, hs₁, hval⟩ := hs.evaluatePart
      (fun r => (chunk.bounds.getD r default).frameBegin)
      (fun r => (chunk.bounds.getD r default).frameEnd) (fun _ => 0) .full chunk.rowIdx
      (frameEnd_le chunk)
    rw [if_neg hmode]
    refine ⟨map_congr_left fun r hr => ?_, ⟨⟨s₁, hs₁⟩, h.rightPart⟩⟩
    have hr := mem_range.1 hr
    rw [hs₁.states, hval r hr, naive_eq (frameEnd_le chunk r hr)]
    simp only [currProd, partBegin, partEnd, frameBegins, frameEnds, max_self, min_self,
      reduceCtorEq, false_and, if_false, one_mul]
    refine congrArg _ (rangeProd_congr fun i _ _ => ?_)
    rw [included, excluded, hno]
    rfl

/-- The frames of all chunks that a thread evaluates are evaluated to the aggregates of their rows. -/
theorem evaluateChunks_eq_naive (T : WindowSegmentTree ρ σ τ) (chunks : List (BoundsChunk T.collection.count)) :
    T.evaluateChunks T.finalize ⟨none, none⟩ chunks =
      chunks.map fun chunk => (List.range chunk.bounds.length).map fun r =>
        T.naive (chunk.bounds.getD r default) (chunk.rowIdx + r) := by
  have hchks : ∀ lstate, T.LocalReady lstate → T.evaluateChunks T.finalize lstate chunks =
      chunks.map fun chunk => (range chunk.bounds.length).map fun r =>
        T.naive (chunk.bounds.getD r default) (chunk.rowIdx + r) := by
    induction chunks with
    | nil => exact fun _ _ => rfl
    | cons chunk chunks ih =>
      intro lstate h
      obtain ⟨hres, hready⟩ := evaluate_naive h chunk
      rw [evaluateChunks, map_cons, hres, ih _ hready]
  exact hchks _ ⟨⟨_, ready_newPart⟩, ⟨_, ready_newPart⟩⟩

end WindowSegmentTree

end WfOpt

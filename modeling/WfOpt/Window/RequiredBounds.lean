import WfOpt.Window.PeerBounds

/-!
# Required bounds

A bound is only computed if it is required, and the bounds it is computed from should be required, too: otherwise
they are what is left over in the chunk. Two runs of calls from the same required columns give the same frames
(`runFrames_eq`), except that the search for the end of a preceding range frame starts from the end of the valid
rows, which is not required for it.
-/

namespace WfOpt

open List Function Finset

/-! ## What bounds are computed from -/

namespace BoundWindowExpression

variable {w : BoundWindowExpression}

/-- The start of the valid rows is computed from the partition. -/
theorem partition_mem_of_validBegin (h : .validBegin ∈ w.getWindowBounds) :
    .partitionBegin ∈ w.getWindowBounds ∧ .partitionEnd ∈ w.getWindowBounds := by
  rw [getWindowBounds, mem_requireForPartitionEnd, mem_requireForPeerEnd] at h ⊢
  rw [mem_requireForPartitionEnd, mem_requireForPeerEnd]
  have hvld : .validBegin ∈ requireForValidBegin (w.requireForValidEnd (w.requireForFrames w.executorBounds)) := by
    rcases h with (h | ⟨-, h | ⟨-, h⟩⟩) | ⟨-, h⟩
    · exact h
    all_goals cases h
  rw [mem_requireForValidBegin] at hvld
  have hmem : .validBegin ∈ w.requireForValidEnd (w.requireForFrames w.executorBounds) := by
    rcases hvld with hvld | ⟨hvld, -⟩
    all_goals exact hvld
  exact ⟨.inl (.inl (mem_requireForValidBegin.2 (.inr ⟨hmem, .inl rfl⟩))),
    .inl (.inl (mem_requireForValidBegin.2 (.inr ⟨hmem, .inr rfl⟩)))⟩

/-- The end of the valid rows is not required without their start. -/
theorem validBegin_mem (h : .validEnd ∈ w.getWindowBounds) :
    .validBegin ∈ w.getWindowBounds ∧ .partitionEnd ∈ w.getWindowBounds := by
  have hvld : .validEnd ∈ w.requireForFrames w.executorBounds := by
    rw [getWindowBounds, mem_requireForPartitionEnd, mem_requireForPeerEnd, mem_requireForValidBegin,
      mem_requireForValidEnd] at h
    rcases h with (((h | ⟨h, -⟩) | ⟨-, h | h⟩) | ⟨-, h | ⟨-, h⟩⟩) | ⟨-, h⟩
    · exact h
    · exact h
    all_goals cases h
  have hreqd : ∀ c, c = .partitionEnd ∨ w.hasFollowingRange = true ∧ c = .validBegin → c ∈ w.getWindowBounds := by
    intro c hc
    rw [getWindowBounds, mem_requireForPartitionEnd, mem_requireForPeerEnd, mem_requireForValidBegin,
      mem_requireForValidEnd]
    exact .inl (.inl (.inl (.inr ⟨hvld, hc⟩)))
  refine ⟨?_, hreqd _ (.inl rfl)⟩
  rw [mem_requireForFrames] at hvld
  rcases hvld with hexec | ⟨hfrm, hbds⟩
  · -- the executor needs both
    refine mem_getWindowBounds (mem_requireForFrames.2 (.inl ?_))
    rw [executorBounds] at hexec ⊢
    cases htype : w.type <;> rw [htype] at hexec <;> dsimp only at hexec ⊢
    all_goals by_cases horders : w.argOrders = 0
    all_goals simp [horders] at hexec ⊢
  · by_cases hfoll : w.hasFollowingRange = true
    · exact hreqd _ (.inr ⟨hfoll, rfl⟩)
    · -- otherwise the start of a preceding range needs both
      refine mem_getWindowBounds (mem_requireForFrames.2 (.inr ⟨hfrm, ?_⟩))
      rw [hasFollowingRange, Bool.or_eq_true, decide_eq_true_iff, decide_eq_true_iff, not_or] at hfoll
      rw [frameBounds, mem_union, mem_union, mem_union] at hbds ⊢
      rcases hbds with h | h | h | h
      · exact absurd h (by decide)
      · cases hexclude : w.excludeClause <;> rw [hexclude] at h <;> exact absurd h (by decide)
      · refine .inr (.inr (.inl ?_))
        cases hst : w.start <;> rw [hst] at h <;> first
          | exact absurd h (by decide)
          | exact absurd hst hfoll.1
          | decide
      · cases hstp : w.stop <;> rw [hstp] at h <;> first
          | exact absurd h (by decide)
          | exact absurd hstp hfoll.2

theorem validBegin_mem_of_start (h : .frameBegin ∈ w.getWindowBounds)
    (hst : w.start = .exprPrecedingRange ∨ w.start = .exprFollowingRange) :
    .validBegin ∈ w.getWindowBounds ∧ .validEnd ∈ w.getWindowBounds := by
  have hend : .validEnd ∈ w.getWindowBounds := by
    refine startBounds_mem h ?_
    rcases hst with hst | hst <;> rw [hst] <;> decide
  exact ⟨(validBegin_mem hend).1, hend⟩

end BoundWindowExpression

namespace WindowBoundaries

open BoundWindowExpression

variable {V : Type*} (g : WindowBoundaries V)

/-! ## Columns that are the same -/

/-- The required columns are the same. -/
def Agree (b b' : BoundsColumns) : Prop := ∀ c ∈ g.required, b c = b' c

/-- The states are the same, and the required columns. -/
def AgreeStates (p p' : WindowBoundariesState × BoundsColumns) : Prop := p.1 = p'.1 ∧ g.Agree p.2 p'.2

/-- Both fail in the same way, or the results are related. -/
inductive SameOutcome {α : Type*} (R : α → α → Prop) :
    Except BoundsError α → Except BoundsError α → Prop
  | error (e : BoundsError) : SameOutcome R (.error e) (.error e)
  | ok {a a' : α} (h : R a a') : SameOutcome R (.ok a) (.ok a')

variable {g} {call : BoundsCall V} {b b' : BoundsColumns} {isJump : Bool}
  {p p' : WindowBoundariesState × BoundsColumns}

namespace Agree

variable (h : g.Agree b b')

include h

theorem store (bound : BoundsColumn) (vs : List ℕ) :
    g.Agree (b.store bound vs) (b'.store bound vs) := by
  intro c hc
  by_cases hbd : c = bound
  · subst hbd
    rw [BoundsColumns.store_self, BoundsColumns.store_self, h c hc]
  · rw [BoundsColumns.store_of_ne hbd, BoundsColumns.store_of_ne hbd, h c hc]

theorem fill (bound : BoundsColumn) {count : ℕ} {f f' : ℕ → ℕ}
    (hf : ∀ i < count, f i = f' i) : g.Agree (b.fill count bound f) (b'.fill count bound f') := by
  have hmap : (List.range count).map f = (List.range count).map f' :=
    List.map_congr_left fun i hi => hf i (List.mem_range.1 hi)
  rw [BoundsColumns.fill, BoundsColumns.fill, hmap]
  exact h.store bound _

theorem reference {bound source : BoundsColumn} (hsrc : source ∈ g.required) :
    g.Agree (b.reference bound source) (b'.reference bound source) := by
  intro c hc
  by_cases hbd : c = bound
  · subst hbd
    rw [BoundsColumns.reference_self, BoundsColumns.reference_self, h source hsrc]
  · rw [BoundsColumns.reference_of_ne hbd, BoundsColumns.reference_of_ne hbd, h c hc]

theorem clampFrame {bound : BoundsColumn} (hbd : bound ∈ g.required)
    (hpart : .partitionBegin ∈ g.required ∧ .partitionEnd ∈ g.required) (count : ℕ) :
    g.Agree (b.clampFrame count bound) (b'.clampFrame count bound) := by
  refine h.fill bound fun i _ => ?_
  rw [h _ hbd, h _ hpart.1, h _ hpart.2]

end Agree

/-- A step that is only taken if its bound is required. -/
theorem AgreeStates.whenRequired (h : g.AgreeStates p p') (bound : BoundsColumn)
    {f : WindowBoundariesState × BoundsColumns → WindowBoundariesState × BoundsColumns}
    (hf : bound ∈ g.required → g.AgreeStates (f p) (f p')) :
    g.AgreeStates (g.whenRequired bound f p) (g.whenRequired bound f p') := by
  by_cases hreq : bound ∈ g.required
  · rw [whenRequired_of_mem hreq, whenRequired_of_mem hreq]
    exact hf hreq
  · rw [whenRequired_of_not_mem hreq, whenRequired_of_not_mem hreq]
    exact h

/-! ## The bounds of rows -/

section

variable (h : g.AgreeStates p p')

include h

theorem AgreeStates.partitionBegin :
    g.AgreeStates (g.partitionBegin call isJump p) (g.partitionBegin call isJump p') := by
  obtain ⟨s, b⟩ := p
  obtain ⟨s', b'⟩ := p'
  obtain ⟨rfl, h⟩ : s = s' ∧ g.Agree b b' := h
  rw [WindowBoundaries.partitionBegin, WindowBoundaries.partitionBegin]
  by_cases hover : g.partitionCount + g.orderCount = 0
  · rw [if_pos hover, if_pos hover]
    exact ⟨rfl, h.fill _ fun _ _ => rfl⟩
  · rw [if_neg hover, if_neg hover]
    exact ⟨rfl, h.store _ _⟩

theorem AgreeStates.partitionEnd (hreq : .partitionEnd ∈ g.required) :
    g.AgreeStates (g.partitionEnd call isJump p) (g.partitionEnd call isJump p') := by
  obtain ⟨s, b⟩ := p
  obtain ⟨s', b'⟩ := p'
  obtain ⟨rfl, h⟩ : s = s' ∧ g.Agree b b' := h
  rw [WindowBoundaries.partitionEnd, WindowBoundaries.partitionEnd]
  by_cases hover : g.partitionCount + g.orderCount = 0
  · rw [if_pos hover, if_pos hover]
    exact ⟨rfl, h.fill _ fun _ _ => rfl⟩
  · have hcell : g.partitionEndCell call b = g.partitionEndCell call b' := by
      funext i t
      rw [partitionEndCell, partitionEndCell, h _ (required_partitionBegin hreq hover)]
    rw [if_neg hover, if_neg hover]
    rw [hcell]
    exact ⟨rfl, h.store _ _⟩

theorem AgreeStates.peerBegin :
    g.AgreeStates (g.peerBegin call isJump p) (g.peerBegin call isJump p') := by
  obtain ⟨s, b⟩ := p
  obtain ⟨s', b'⟩ := p'
  obtain ⟨rfl, h⟩ : s = s' ∧ g.Agree b b' := h
  rw [WindowBoundaries.peerBegin, WindowBoundaries.peerBegin]
  by_cases hover : g.partitionCount + g.orderCount = 0
  · rw [if_pos hover, if_pos hover]
    exact ⟨rfl, h.fill _ fun _ _ => rfl⟩
  · rw [if_neg hover, if_neg hover]
    exact ⟨rfl, h.store _ _⟩

theorem AgreeStates.peerEnd (hreq : .peerEnd ∈ g.required) :
    g.AgreeStates (g.peerEnd call p) (g.peerEnd call p') := by
  obtain ⟨s, b⟩ := p
  obtain ⟨s', b'⟩ := p'
  obtain ⟨rfl, h⟩ : s = s' ∧ g.Agree b b' := h
  have hend := required_partitionEnd hreq
  rw [WindowBoundaries.peerEnd, WindowBoundaries.peerEnd]
  by_cases hord : g.orderCount = 0
  · rw [if_pos hord, if_pos hord]
    exact ⟨rfl, h.reference hend⟩
  · have hbeg := required_peerBegin hreq hord
    have hcell : g.peerEndCell b = g.peerEndCell b' := by
      funext i t
      rw [peerEndCell, peerEndCell, h _ hbeg, h _ hend]
    rw [if_neg hord, if_neg hord]
    dsimp only
    rw [hcell, h _ hbeg]
    exact ⟨rfl, h.store _ _⟩

theorem AgreeStates.validBegin (hreq : .validBegin ∈ g.required) :
    g.AgreeStates (g.validBegin call isJump p) (g.validBegin call isJump p') := by
  obtain ⟨s, b⟩ := p
  obtain ⟨s', b'⟩ := p'
  obtain ⟨rfl, h⟩ : s = s' ∧ g.Agree b b' := h
  obtain ⟨hbeg, hend⟩ := partition_mem_of_validBegin (w := g.wexpr) hreq
  have hcell : g.validBeginCell call isJump b = g.validBeginCell call isJump b' := by
    funext i t
    rw [validBeginCell, validBeginCell, h _ hbeg, h _ hend]
  rw [WindowBoundaries.validBegin, WindowBoundaries.validBegin]
  rw [hcell]
  exact ⟨rfl, h.store _ _⟩

theorem AgreeStates.validEnd (hreq : .validEnd ∈ g.required) :
    g.AgreeStates (g.validEnd call isJump p) (g.validEnd call isJump p') := by
  obtain ⟨s, b⟩ := p
  obtain ⟨s', b'⟩ := p'
  obtain ⟨rfl, h⟩ : s = s' ∧ g.Agree b b' := h
  obtain ⟨hbeg, hend⟩ := validBegin_mem (w := g.wexpr) hreq
  have hcell : g.validEndCell call isJump b = g.validEndCell call isJump b' := by
    funext i t
    rw [validEndCell, validEndCell, h _ hbeg, h _ hend]
  rw [WindowBoundaries.validEnd, WindowBoundaries.validEnd]
  rw [hcell]
  exact ⟨rfl, h.store _ _⟩

end

/-- The bounds of rows are computed from required columns. -/
theorem agree_rowBounds (call : BoundsCall V) (s : WindowBoundariesState) (h : g.Agree b b') :
    g.AgreeStates (g.rowBounds call s b) (g.rowBounds call s b') := by
  rw [rowBounds, rowBounds]
  obtain ⟨jump, hjump⟩ : ∃ jump : Bool, jump = decide (s.nextPos ≠ call.rowIdx) := ⟨_, rfl⟩
  simp only [← hjump]
  have h₀ : g.AgreeStates ({ s with nextPos := call.rowIdx }, b)
      ({ s with nextPos := call.rowIdx }, b') := ⟨rfl, h⟩
  have h₁ := h₀.whenRequired .partitionBegin (f := g.partitionBegin call jump)
    fun _ => h₀.partitionBegin
  have h₂ := h₁.whenRequired .partitionEnd (f := g.partitionEnd call jump) h₁.partitionEnd
  have h₃ := h₂.whenRequired .peerBegin (f := g.peerBegin call jump) fun _ => h₂.peerBegin
  have h₄ := h₃.whenRequired .peerEnd (f := g.peerEnd call) h₃.peerEnd
  have h₅ := h₄.whenRequired .validBegin (f := g.validBegin call jump) h₄.validBegin
  exact h₅.whenRequired .validEnd h₅.validEnd

/-! ## The frames -/

section Frames

variable [LinearOrder V] {s : WindowBoundariesState}

omit [LinearOrder V] in
theorem Agree.storeFrame (h : g.Agree b b') {σ : Type} {bound : BoundsColumn}
    {cells cells' : Except BoundsError (σ × List ℕ)} (hcells : cells = cells')
    (hbd : bound ∈ g.required)
    (hpart : .partitionBegin ∈ g.required ∧ .partitionEnd ∈ g.required) :
    SameOutcome g.Agree (storeFrame call b bound cells) (storeFrame call b' bound cells') := by
  subst hcells
  cases cells with
  | error e => exact .error e
  | ok r => exact .ok ((h.store bound r.2).clampFrame hbd hpart call.count)

omit [LinearOrder V] in
theorem Agree.fillFrame (h : g.Agree b b') {bound : BoundsColumn} {f f' : ℕ → ℕ} (hf : f = f')
    (hbd : bound ∈ g.required) (hpart : .partitionBegin ∈ g.required ∧ .partitionEnd ∈ g.required) :
    SameOutcome g.Agree (.ok ((b.fill call.count bound f).clampFrame call.count bound))
      (.ok ((b'.fill call.count bound f').clampFrame call.count bound)) := by
  subst hf
  exact .ok ((h.fill _ fun _ _ => rfl).clampFrame hbd hpart call.count)

/-- The starts of frames are computed from required columns. -/
theorem agree_frameBegin (call : BoundsCall V) (h : g.Agree b b') (hreq : .frameBegin ∈ g.required) :
    SameOutcome g.Agree (g.frameBegin call b) (g.frameBegin call b') := by
  have hpart := required_partition (.inl hreq)
  have hst : ∀ c ∈ startBounds g.wexpr.start, b c = b' c := fun c hc =>
    h c (required_startBounds hreq hc)
  have hrng : g.wexpr.start = .exprPrecedingRange ∨ g.wexpr.start = .exprFollowingRange →
      b .peerBegin = b' .peerBegin ∧ b .validBegin = b' .validBegin ∧ b .validEnd = b' .validEnd := by
    intro hcase
    obtain ⟨hbeg, hend⟩ := validBegin_mem_of_start (w := g.wexpr) hreq hcase
    refine ⟨hst _ ?_, h _ hbeg, h _ hend⟩
    rcases hcase with hcase | hcase <;> rw [hcase] <;> decide
  have hpb := h _ hpart.1
  have hpe := h _ hpart.2
  rw [frameBegin, frameBegin]
  cases hcase : g.wexpr.start <;> simp only
  case unboundedPreceding => exact .ok (h.reference hpart.1)
  case currentRowRange | currentRowGroups =>
    have hpeer : .peerBegin ∈ g.required := required_startBounds hreq (by rw [hcase]; decide)
    exact .ok ((h.clampFrame hpeer hpart call.count).reference hpeer)
  case currentRowRows => exact h.fillFrame rfl hreq hpart
  case exprPrecedingRows | exprFollowingRows => exact h.fillFrame (by rw [hpb]) hreq hpart
  case exprPrecedingRange =>
    obtain ⟨hpeer, hbeg, hend⟩ := hrng (.inl hcase)
    refine h.storeFrame ?_ hreq hpart
    have hcell : g.rangeBeginCell call.boundaryStart b = g.rangeBeginCell call.boundaryStart b' := by
      funext preceding first last i prev
      rw [rangeBeginCell, rangeBeginCell, hpeer, hbeg, hend, hpb]
    rw [hcell, hbeg, hpb]
  case exprFollowingRange =>
    obtain ⟨hpeer, hbeg, hend⟩ := hrng (.inr hcase)
    refine h.storeFrame ?_ hreq hpart
    have hcell : g.rangeBeginCell call.boundaryStart b = g.rangeBeginCell call.boundaryStart b' := by
      funext preceding first last i prev
      rw [rangeBeginCell, rangeBeginCell, hpeer, hbeg, hend, hpb]
    rw [hcell, hbeg, hend, hpb]
  case exprPrecedingGroups =>
    have hpeer : b .peerBegin = b' .peerBegin := hst _ (by rw [hcase]; decide)
    refine h.storeFrame ?_ hreq hpart
    rw [hpeer, hpb]
  case exprFollowingGroups =>
    have hpeer : b .peerBegin = b' .peerBegin := hst _ (by rw [hcase]; decide)
    refine h.storeFrame ?_ hreq hpart
    rw [hpeer, hpe]
  case unboundedFollowing | invalid => exact .error _

variable (g) in
/-- The end of the valid rows is required if it is a hint for the end of frames. -/
def RequiresHint : Prop := .frameEnd ∈ g.required → g.wexpr.stop = .exprPrecedingRange → .validEnd ∈ g.required

/-- So are the ends of frames, if the end of the valid rows is required. -/
theorem agree_frameEnd (call : BoundsCall V) (s : WindowBoundariesState) (h : g.Agree b b')
    (hreq : .frameEnd ∈ g.required) (hhint : g.RequiresHint) :
    SameOutcome g.Agree (g.frameEnd call s b) (g.frameEnd call s b') := by
  have hpart := required_partition (.inr hreq)
  have hend : ∀ c ∈ endBounds g.wexpr.stop, b c = b' c := fun c hc => h c (required_endBounds hreq hc)
  have hpb := h _ hpart.1
  have hpe := h _ hpart.2
  have hcells : b .peerEnd = b' .peerEnd → b .validBegin = b' .validBegin →
      g.rangeEndCell call.boundaryEnd b = g.rangeEndCell call.boundaryEnd b' := by
    intro hpeer hbeg
    funext preceding first last reset i prev
    rw [rangeEndCell, rangeEndCell, hpeer, hbeg, hpb]
  rw [frameEnd, frameEnd]
  cases hcase : g.wexpr.stop <;> simp only
  case unboundedFollowing => exact .ok (h.reference hpart.2)
  case currentRowRange | currentRowGroups =>
    have hpeer : .peerEnd ∈ g.required := required_endBounds hreq (by rw [hcase]; decide)
    exact .ok ((h.clampFrame hpeer hpart call.count).reference hpeer)
  case currentRowRows => exact h.fillFrame rfl hreq hpart
  case exprPrecedingRows | exprFollowingRows => exact h.fillFrame (by rw [hpe]) hreq hpart
  case exprPrecedingRange =>
    have hpeer : b .peerEnd = b' .peerEnd := hend _ (by rw [hcase]; decide)
    have hbeg : b .validBegin = b' .validBegin := hend _ (by rw [hcase]; decide)
    -- the hint of the first row
    have hvld : b .validEnd = b' .validEnd := h _ (hhint hreq hcase)
    refine h.storeFrame ?_ hreq hpart
    rw [hcells hpeer hbeg, hbeg, hvld, hpb]
  case exprFollowingRange =>
    have hpeer : b .peerEnd = b' .peerEnd := hend _ (by rw [hcase]; decide)
    have hbeg : b .validBegin = b' .validBegin := hend _ (by rw [hcase]; decide)
    have hvld : b .validEnd = b' .validEnd := hend _ (by rw [hcase]; decide)
    refine h.storeFrame ?_ hreq hpart
    rw [hcells hpeer hbeg, hvld, hpb]
  case exprPrecedingGroups =>
    have hpeer : b .peerEnd = b' .peerEnd := hend _ (by rw [hcase]; decide)
    refine h.storeFrame ?_ hreq hpart
    rw [hpeer, hpb]
  case exprFollowingGroups =>
    have hpeer : b .peerEnd = b' .peerEnd := hend _ (by rw [hcase]; decide)
    refine h.storeFrame ?_ hreq hpart
    rw [hpeer, hpe]
  case unboundedPreceding | invalid => exact .error _

/-! ## Two runs -/

theorem agree_bounds (call : BoundsCall V) (s : WindowBoundariesState) (h : g.Agree b b') (hhint : g.RequiresHint) :
    SameOutcome g.AgreeStates (g.bounds call s b) (g.bounds call s b') := by
  obtain ⟨hstate, hrs⟩ := agree_rowBounds call s h
  have hbeg : SameOutcome g.Agree
      (g.whenRequired .frameBegin (· >>= g.frameBegin call) (.ok (g.rowBounds call s b).2))
      (g.whenRequired .frameBegin (· >>= g.frameBegin call) (.ok (g.rowBounds call s b').2)) := by
    by_cases hreq : .frameBegin ∈ g.required
    · rw [whenRequired_of_mem hreq, whenRequired_of_mem hreq]
      exact agree_frameBegin call hrs hreq
    · rw [whenRequired_of_not_mem hreq, whenRequired_of_not_mem hreq]
      exact .ok hrs
  rw [bounds, bounds, hstate]
  generalize g.whenRequired .frameBegin (· >>= g.frameBegin call) (.ok (g.rowBounds call s b).2) = x
    at hbeg ⊢
  generalize g.whenRequired .frameBegin (· >>= g.frameBegin call) (.ok (g.rowBounds call s b').2) = x'
    at hbeg ⊢
  have hend : SameOutcome g.Agree
      (g.whenRequired .frameEnd (· >>= g.frameEnd call (g.rowBounds call s b').1) x)
      (g.whenRequired .frameEnd (· >>= g.frameEnd call (g.rowBounds call s b').1) x') := by
    by_cases hreq : .frameEnd ∈ g.required
    · rw [whenRequired_of_mem hreq, whenRequired_of_mem hreq]
      cases hbeg with
      | error e => exact .error e
      | ok h₁ => exact agree_frameEnd call _ h₁ hreq hhint
    · rwa [whenRequired_of_not_mem hreq, whenRequired_of_not_mem hreq]
  revert hend
  generalize g.whenRequired .frameEnd (· >>= g.frameEnd call (g.rowBounds call s b').1) x = y
  generalize g.whenRequired .frameEnd (· >>= g.frameEnd call (g.rowBounds call s b').1) x' = y'
  intro hend
  cases hend with
  | error e => exact .error e
  | ok h₂ => exact .ok ⟨rfl, h₂⟩

variable (g) in
/-- The frames of the rows of a chunk, if they are computed. -/
def frames (call : BoundsCall V) (b : BoundsColumns) : List ℕ × List ℕ :=
  (if .frameBegin ∈ g.required then (List.range call.count).map (b .frameBegin) else [],
    if .frameEnd ∈ g.required then (List.range call.count).map (b .frameEnd) else [])

variable (g) in
/-- The frames of a run of calls, with what the columns have before each of them. -/
def runFrames (s : WindowBoundariesState) :
    List (BoundsCall V × BoundsColumns) → Except BoundsError (List (List ℕ × List ℕ))
  | [] => .ok []
  | (call, b) :: rest => do
    let p ← g.bounds call s b
    let frames ← runFrames p.1 rest
    return g.frames call p.2 :: frames

omit [LinearOrder V] in
/-- Frames are required columns. -/
theorem Agree.frames (h : g.Agree b b') (call : BoundsCall V) : g.frames call b = g.frames call b' := by
  rw [WindowBoundaries.frames, WindowBoundaries.frames]
  refine Prod.ext ?_ ?_
  · by_cases hreq : .frameBegin ∈ g.required
    · dsimp only
      rw [if_pos hreq, if_pos hreq, h _ hreq]
    · dsimp only
      rw [if_neg hreq, if_neg hreq]
  · by_cases hreq : .frameEnd ∈ g.required
    · dsimp only
      rw [if_pos hreq, if_pos hreq, h _ hreq]
    · dsimp only
      rw [if_neg hreq, if_neg hreq]

/-- Two runs of the same calls with the same required columns before each of them give the same frames. -/
theorem runFrames_eq (hhint : g.RequiresHint) {calls calls' : List (BoundsCall V × BoundsColumns)}
    (h : List.Forall₂ (fun c c' => c.1 = c'.1 ∧ g.Agree c.2 c'.2) calls calls')
    (s : WindowBoundariesState) : g.runFrames s calls = g.runFrames s calls' := by
  induction h generalizing s with
  | nil => rfl
  | cons hcall _ ih =>
    rename_i c c' rest rest' _
    obtain ⟨call, b⟩ := c
    obtain ⟨call', b'⟩ := c'
    obtain ⟨rfl, hagr⟩ : call = call' ∧ g.Agree b b' := hcall
    have hbds := agree_bounds call s hagr hhint
    rw [runFrames, runFrames]
    revert hbds
    generalize g.bounds call s b = x
    generalize g.bounds call s b' = x'
    intro hbds
    cases hbds with
    | error e => rfl
    | ok hp =>
      simp only [bind, Except.bind]
      rw [hp.1, ih, hp.2.frames call]

/-- Three peers and a row that follows them, with frames from the start of the partition to a bound. -/
def threePeers (stop : WindowBoundary) : WindowBoundaries ℕ where
  wexpr := ⟨.aggregate, 0, [.ascending], 0, .unboundedPreceding, stop, .noOther⟩
  inputSize := 4
  partitionMask := ⟨some fun _ => 1#64⟩
  orderMask := ⟨some fun _ => 9#64⟩
  range := ⟨fun _ => false, fun row => if row = 3 then 5 else 1⟩

/-- The last row, for which the boundary value is that of the peers. -/
def afterPeers : BoundsCall ℕ := ⟨3, 1, ⟨fun _ => false, fun _ => 0, fun _ => 1⟩,
  ⟨fun _ => false, fun _ => 0, fun _ => 1⟩⟩

/-- Columns that are all zero, but for the end of the valid rows. -/
def leftoverValidEnd (stop : ℕ) : BoundsColumns := update (fun _ _ => 0) .validEnd fun _ => stop

omit [LinearOrder V] in
theorem agree_leftoverValidEnd (h : .validEnd ∉ g.required) (stop stop' : ℕ) :
    g.Agree (leftoverValidEnd stop) (leftoverValidEnd stop') := by
  intro c hc
  have hne : c ≠ .validEnd := by
    rintro rfl
    exact h hc
  rw [leftoverValidEnd, leftoverValidEnd, update_of_ne hne, update_of_ne hne]

theorem runFrames_three_peers : (threePeers .currentRowRows).runFrames .new [(afterPeers, leftoverValidEnd 0)] =
      (threePeers .currentRowRows).runFrames .new [(afterPeers, leftoverValidEnd 1)] := by
  have hreqd : .validEnd ∉ (threePeers .currentRowRows).required := by decide +kernel
  have hstp : (threePeers .currentRowRows).wexpr.stop ≠ .exprPrecedingRange := by decide
  refine runFrames_eq (fun _ h => absurd h hstp) (.cons ?_ .nil) .new
  exact ⟨rfl, agree_leftoverValidEnd hreqd 0 1⟩

/-- If the frames end before a row, what is left over as the end of the valid rows is a hint. -/
theorem not_runFrames_leftover : (threePeers .exprPrecedingRange).Agree (leftoverValidEnd 0) (leftoverValidEnd 1) ∧
      (threePeers .exprPrecedingRange).runFrames .new [(afterPeers, leftoverValidEnd 0)] = .ok [([0], [3])] ∧
      (threePeers .exprPrecedingRange).runFrames .new [(afterPeers, leftoverValidEnd 1)] = .ok [([0], [1])] := by
  have hreqd : .validEnd ∉ (threePeers .exprPrecedingRange).required := by decide +kernel
  refine ⟨agree_leftoverValidEnd hreqd 0 1, ?_, ?_⟩
  · decide +kernel
  · decide +kernel

end Frames

end WindowBoundaries

end WfOpt

import WfOpt.Window.FindStart
import WfOpt.Window.ValueFunctions

/-!
# Values of a frame

Without an order of its own for its argument, `first_value`, `last_value` or `nth_value` searches the parts of the
frame that are not excluded for a row that counts, one part after the other. The parts have the rows that are not
excluded, in order (`PartsRight`), and the row found is the one meant, unless the frame ends before it starts
(`ValueColumn.parts_iff`).
-/

namespace WfOpt

open List

/-! ## Model -/

/-- The argument of a value function in the collection, with the mask of the rows that are not `NULL` there. -/
structure ValueColumn (V : Type*) where
  ignoreNulls : Bool
  cells : List (Option V)
  validity : ValidityMask
  validity_eq : ∀ row < cells.length, validity.rowIsValid row = (cells.getD row none).isSome

namespace ValueColumn

variable {V : Type*} (C : ValueColumn V)

/-- `ignore_nulls` -/
def mask : ValidityMask := if C.ignoreNulls then C.validity else .new

/-- The loop of `WindowFirstValueExecutor` over the parts of a frame. -/
def firstIn (mask : ValidityMask) : List FrameBounds → Option ℕ
  | [] => none
  | frame :: frames =>
    if frame.stop ≤ frame.start then firstIn mask frames
    else
      let (firstIdx, n) := mask.findNextStart frame.start frame.stop 1
      if n = 0 then some firstIdx else firstIn mask frames

/-- The loop of `WindowLastValueExecutor`, which goes from the last part to the first one. -/
def lastIn (mask : ValidityMask) : List FrameBounds → Option ℕ
  | [] => none
  | frame :: frames =>
    if frame.stop ≤ frame.start then lastIn mask frames
    else
      let (lastIdx, n) := mask.findPrevStart frame.start frame.stop 1
      if n = 0 then some lastIdx else lastIn mask frames

/-- The loop of `WindowNthValueExecutor`, which decrements `n` as it goes along. -/
def nthIn (mask : ValidityMask) : List FrameBounds → ℕ → Option ℕ
  | [], _ => none
  | frame :: frames, n =>
    if frame.stop ≤ frame.start then nthIn mask frames n
    else
      let (nthIndex, n) := mask.findNextStart frame.start frame.stop n
      if n = 0 then some nthIndex else nthIn mask frames n

/-- The cell of the row that is found is copied, which fails if there is no such row; or else the result is `NULL`. -/
def copyFound (row : Option ℕ) : Option (Option V) := match row with
  | some row => C.cells[row]?
  | none => some none

/-- The value function is evaluated for a row. -/
def evaluate (f : ValueFunction) (frames : List FrameBounds) : Option (Option V) := match f with
  | .firstValue => C.copyFound (firstIn C.mask frames)
  | .lastValue => C.copyFound (lastIn C.mask frames.reverse)
  | .nthValue none => some none
  | .nthValue (some nParam) =>
    if nParam.toInt < 1 then some none else C.copyFound (nthIn C.mask frames nParam.toNat)

/-! ## What is returned -/

/-- A row counts: under `IGNORE NULLS`, its value is not `NULL`. -/
def counted (row : ℕ) : Bool := !C.ignoreNulls || (C.cells.getD row none).isSome

/-- The rows of the frame that are not excluded and count. -/
def frameRows (mode : WindowExcludeMode) (b : WindowBounds) (curRow : ℕ) : List ℕ :=
  (range' b.frameBegin (b.frameEnd - b.frameBegin)).filter fun i => C.counted i && !mode.excludes b curRow i

/-- The value a function should have, which is `NULL` if there is no such row. -/
def expected (f : ValueFunction) (mode : WindowExcludeMode) (b : WindowBounds) (curRow : ℕ) : Option V :=
  let rows := C.frameRows mode b curRow
  let row := match f with
    | .firstValue => rows.head?
    | .lastValue => rows.getLast?
    | .nthValue none => none
    | .nthValue (some n) => if n.toInt < 1 then none else rows[n.toNat - 1]?
  row.bind fun row => C.cells.getD row none

end ValueColumn

/-- The parts of a frame start before they end, come one after the other, and have the rows that are not excluded. -/
structure PartsRight (mode : WindowExcludeMode) (b : WindowBounds) (curRow : ℕ) : Prop where
  start_le : ∀ f ∈ evaluateSubFrames mode b curRow, f.start ≤ f.stop
  increasing : (evaluateSubFrames mode b curRow).Pairwise fun f g => f.stop ≤ g.start
  mem_iff : ∀ i, inFrames (evaluateSubFrames mode b curRow) i = inFrame mode b curRow i

/-! ## The parts -/

section Parts

variable {mode : WindowExcludeMode} {b : WindowBounds} {curRow : ℕ}

theorem partsRight_of_le (mode : WindowExcludeMode) (hle : b.frameBegin ≤ b.frameEnd)
    (hprs : b.peerBegin ≤ curRow ∧ curRow < b.peerEnd) : PartsRight mode b curRow := by
  obtain ⟨s, hs, hin⟩ := evaluateSubFrames_ordered mode hle hprs
  refine ⟨hs ▸ s.start_le, ?_, hs ▸ hin⟩
  cases mode
  all_goals simp [evaluateSubFrames]
  all_goals omega

/-- Parts that come one after the other reach from the start of the frame to its end. -/
theorem PartsRight.frameBegin_le (h : PartsRight mode b curRow) : b.frameBegin ≤ b.frameEnd := by
  have hst := h.start_le
  have hinc := h.increasing
  cases mode
  all_goals simp [evaluateSubFrames] at hst hinc
  all_goals omega

end Parts

/-! ## The searches -/

section Search

variable {mask : ValidityMask} {frames : List FrameBounds}

/-- The rows of the frames that are valid. -/
def markedRows (mask : ValidityMask) (frames : List FrameBounds) : List ℕ :=
  frames.flatMap fun f => marks mask.rowIsValid f.start f.stop

theorem markedRows_cons (f : FrameBounds) (frames : List FrameBounds) :
    markedRows mask (f :: frames) = marks mask.rowIsValid f.start f.stop ++ markedRows mask frames :=
  flatMap_cons

namespace ValueColumn

variable (frames : List FrameBounds)

/-- The search for the n-th row goes on behind a part that has too few rows. -/
theorem nthIn_eq {n : ℕ} (hn : 1 ≤ n) :
    nthIn mask frames n = (markedRows mask frames)[n - 1]? := by
  induction frames generalizing n with
  | nil => rfl
  | cons frame frames ih =>
    rw [nthIn, markedRows_cons]
    split_ifs with hemp
    · rw [marks_of_le hemp, nil_append, ih hn]
    · rw [ValidityMask.findNextStart_eq hn, nthMark]
      dsimp only
      split_ifs with hz
      · have hlt : n - 1 < (marks mask.rowIsValid frame.start frame.stop).length := by omega
        rw [getElem?_append_left hlt, getElem?_eq_getElem hlt, Option.getD_some]
      · rw [ih (by omega), getElem?_append_right (by omega)]
        refine congrArg (fun k => (markedRows mask frames)[k]?) ?_
        omega

theorem firstIn_eq : firstIn mask frames = (markedRows mask frames).head? := by
  induction frames with
  | nil => rfl
  | cons frame frames ih =>
    rw [firstIn, markedRows_cons]
    split_ifs with hemp
    · rw [marks_of_le hemp, nil_append, ih]
    · rw [ValidityMask.findNextStart_eq le_rfl, nthMark]
      cases marks mask.rowIsValid frame.start frame.stop with
      | nil => exact ih
      | cons row rows =>
        have hz : 1 - (row :: rows).length = 0 := Nat.sub_eq_zero_of_le (Nat.le_add_left 1 _)
        rw [hz]
        rfl

theorem lastIn_eq : lastIn mask frames.reverse = (markedRows mask frames).getLast? := by
  induction frames using reverseRecOn with
  | nil => rfl
  | append_singleton frames frame ih =>
    rw [reverse_append, reverse_singleton, singleton_append, lastIn, markedRows, flatMap_append,
      flatMap_singleton, ← markedRows]
    split_ifs with hemp
    · rw [marks_of_le hemp, append_nil, ih]
    · rw [ValidityMask.findPrevStart_eq le_rfl (not_le.1 hemp).le, nthMarkBack, getLast?_append, ← head?_reverse]
      have hlen : (marks mask.rowIsValid frame.start frame.stop).length =
        (marks mask.rowIsValid frame.start frame.stop).reverse.length := length_reverse.symm
      rw [hlen]
      cases (marks mask.rowIsValid frame.start frame.stop).reverse with
      | nil => exact ih
      | cons row rows =>
        have hz : 1 - (row :: rows).length = 0 := Nat.sub_eq_zero_of_le (Nat.le_add_left 1 _)
        rw [hz]
        rfl

end ValueColumn

theorem markedRows_eq {l r : ℕ} (hst : ∀ f ∈ frames, f.start ≤ f.stop)
    (hinc : frames.Pairwise fun f g => f.stop ≤ g.start) (hl : ∀ f ∈ frames, l ≤ f.start)
    (hr : ∀ f ∈ frames, f.stop ≤ r) :
    markedRows mask frames = marks (fun i => mask.rowIsValid i && inFrames frames i) l r := by
  induction frames generalizing l with
  | nil => exact (marks_eq_nil fun i _ _ => Bool.and_false _).symm
  | cons f frames ih =>
    rw [pairwise_cons] at hinc
    have hf : f ∈ f :: frames := mem_cons_self
    have htail : ∀ i, i < f.stop → inFrames frames i = false := by
      intro i hi
      refine any_eq_false.2 fun g hg hin => ?_
      have := hinc.1 g hg
      rw [FrameBounds.contains_iff] at hin
      omega
    have hcons : ∀ i, inFrames (f :: frames) i = (f.contains i || inFrames frames i) := fun i => rfl
    have hcont : ∀ i, f.contains i = true ↔ f.start ≤ i ∧ i < f.stop := f.contains_iff
    rw [markedRows_cons, ih (fun g hg => hst g (mem_cons_of_mem _ hg)) hinc.2 hinc.1
      (fun g hg => hr g (mem_cons_of_mem _ hg)), marks_append (hl f hf) ((hst f hf).trans (hr f hf)),
      marks_append (hst f hf) (hr f hf)]
    have hbef : marks (fun i => mask.rowIsValid i && inFrames (f :: frames) i) l f.start = [] := by
      refine marks_eq_nil fun i _ hi => ?_
      have hnot : f.contains i = false := by
        rw [Bool.eq_false_iff, ne_eq, hcont]
        omega
      rw [hcons, htail i (hi.trans_le (hst f hf)), hnot, Bool.or_false, Bool.and_false]
    have hinsi : marks (fun i => mask.rowIsValid i && inFrames (f :: frames) i) f.start f.stop =
        marks mask.rowIsValid f.start f.stop := by
      refine marks_congr fun i hi hi' => ?_
      rw [hcons, (hcont i).2 ⟨hi, hi'⟩, Bool.true_or, Bool.and_true]
    have hbhd : marks (fun i => mask.rowIsValid i && inFrames (f :: frames) i) f.stop r =
        marks (fun i => mask.rowIsValid i && inFrames frames i) f.stop r := by
      refine marks_congr fun i hi _ => ?_
      have hnot : f.contains i = false := by
        rw [Bool.eq_false_iff, ne_eq, hcont]
        omega
      rw [hcons, hnot, Bool.false_or]
    rw [hbef, hinsi, hbhd, nil_append]

end Search

/-! ## The values -/

namespace ValueColumn

variable {V : Type*} {C : ValueColumn V} {mode : WindowExcludeMode} {b : WindowBounds} {curRow : ℕ}

/-- The rows of the parts that are valid for the search are those of the frame that count. -/
theorem markedRows_frame (h : PartsRight mode b curRow) (hend : b.frameEnd ≤ C.cells.length) :
    markedRows C.mask (evaluateSubFrames mode b curRow) = C.frameRows mode b curRow := by
  have hle := h.frameBegin_le
  have hbds : ∀ f ∈ evaluateSubFrames mode b curRow, b.frameBegin ≤ f.start ∧ f.stop ≤ b.frameEnd := by
    intro f hf
    have hst := h.start_le f hf
    cases mode <;> simp [evaluateSubFrames] at hf
    · rw [hf]
      exact ⟨le_rfl, le_rfl⟩
    iterate 2
      · rcases hf with rfl | rfl
        all_goals dsimp only at hst ⊢
        all_goals omega
    · rcases hf with rfl | rfl | rfl
      all_goals dsimp only at hst ⊢
      all_goals omega
  rw [markedRows_eq h.start_le h.increasing (fun f hf => (hbds f hf).1) fun f hf => (hbds f hf).2]
  refine marks_congr fun i hi hi' => ?_
  have hmask : C.mask.rowIsValid i = C.counted i := by
    rw [mask, counted]
    cases C.ignoreNulls with
    | true => exact C.validity_eq i (hi'.trans_le hend)
    | false => exact ValidityMask.rowIsValid_new i
  rw [hmask, h.mem_iff, inFrame, decide_eq_true hi, decide_eq_true hi', Bool.true_and, Bool.true_and]

theorem copyFound_of_mem (hend : b.frameEnd ≤ C.cells.length) {row : Option ℕ}
    (h : ∀ i ∈ row, i ∈ C.frameRows mode b curRow) :
    C.copyFound row = some (row.bind fun row => C.cells.getD row none) := by
  cases row with
  | none => rfl
  | some row =>
    have hmem := mem_range'_1.1 (mem_filter.1 (h row rfl)).1
    have hlt : row < C.cells.length := by omega
    rw [copyFound, getElem?_eq_getElem hlt, Option.bind_some, getD_eq_getElem _ _ hlt]

theorem evaluate_eq (h : PartsRight mode b curRow) (hend : b.frameEnd ≤ C.cells.length) (f : ValueFunction) :
    C.evaluate f (evaluateSubFrames mode b curRow) = some (C.expected f mode b curRow) := by
  have hrs := markedRows_frame h hend
  cases f with
  | firstValue =>
    rw [evaluate, firstIn_eq, hrs]
    exact copyFound_of_mem hend fun i hi => mem_of_mem_head? hi
  | lastValue =>
    rw [evaluate, lastIn_eq, hrs]
    exact copyFound_of_mem hend fun i hi => mem_of_mem_getLast? hi
  | nthValue n =>
    cases n with
    | none => rfl
    | some n =>
      rw [evaluate, expected]
      split_ifs with hneg
      · rfl
      · have hpos : 1 ≤ n.toNat := by
          rcases Nat.eq_zero_or_pos n.toNat with hz | hpos
          · obtain rfl : n = 0 := BitVec.eq_of_toNat_eq hz
            exact absurd (by decide) hneg
          · exact hpos
        rw [nthIn_eq _ hpos, hrs]
        exact copyFound_of_mem hend fun i hi => mem_of_getElem? hi

/-- The parts have the rows of the frame that are not excluded, in order, if and only if the frame does not end before
    it starts. -/
theorem parts_iff (C : ValueColumn V) (mode : WindowExcludeMode) {b : WindowBounds} {curRow : ℕ}
    (hend : b.frameEnd ≤ C.cells.length) (hpeers : b.peerBegin ≤ curRow ∧ curRow < b.peerEnd) :
    (PartsRight mode b curRow ∧
      ∀ f, C.evaluate f (evaluateSubFrames mode b curRow) = some (C.expected f mode b curRow)) ↔
      b.frameBegin ≤ b.frameEnd := by
  constructor
  · exact fun h => h.1.frameBegin_le
  · intro hle
    have h := partsRight_of_le mode hle hpeers
    exact ⟨h, evaluate_eq h hend⟩

/-- A column of four rows. -/
def fourNumbers : ValueColumn ℕ where
  ignoreNulls := false
  cells := [some 1, some 2, some 3, some 4]
  validity := .new
  validity_eq := by decide

theorem parts_iff_fourNumbers :
    (PartsRight .ties ⟨0, 3, 1, 3⟩ 1 ∧ ∀ f, fourNumbers.evaluate f (evaluateSubFrames .ties ⟨0, 3, 1, 3⟩ 1) =
      some (fourNumbers.expected f .ties ⟨0, 3, 1, 3⟩ 1)) ↔ 0 ≤ 3 :=
  parts_iff fourNumbers .ties (by decide) (by decide)

/-- The frame from one row before to three rows before ends before it starts. Without the ties, it has a row. -/
theorem not_partsRight_reversed : ¬PartsRight .ties ⟨2, 1, 3, 4⟩ 3 ∧
      fourNumbers.evaluate .firstValue (evaluateSubFrames .ties ⟨2, 1, 3, 4⟩ 3) = some (some 2) ∧
      fourNumbers.expected .firstValue .ties ⟨2, 1, 3, 4⟩ 3 = none := by
  refine ⟨fun h => absurd h.frameBegin_le (by decide), by decide, by decide⟩

end ValueColumn

end WfOpt

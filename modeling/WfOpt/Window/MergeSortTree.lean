import WfOpt.Lib.LoserTree

/-!
# The merge sort tree

A merge sort tree (`MergeSortTree`) has the elements of a sequence in all stages of a merge sort: a level has sorted
runs of `32 ^ level` elements, merged from up to 32 runs of the level below. From level 2 on, a run also has
*cascading pointers*, for every 32nd of its elements, and for its end: the positions in the runs below of the
elements that do not come before it. A search goes on in one of the runs below between two of these.
-/

namespace WfOpt

open List Function

/-- `std::lower_bound`: the first position of `[first, last)` that has no element below `x`. -/
def lowerBound {E : Type*} [LinearOrder E] (data : ℕ → E) (first last : ℕ) (x : E) : ℕ :=
  if first < last ∧ data first < x then lowerBound data (first + 1) last x else first
  termination_by last - first

/-- `MergeSortTree`. All levels have `count` elements. -/
structure MergeSortTree (E : Type*) where
  count : ℕ
  size : ℕ
  elements : ℕ → ℕ → E
  cascades : ℕ → ℕ → ℕ

namespace MergeSortTree

variable {E : Type*} [LinearOrder E]

/-- `FANOUT`. -/
def fanout : ℕ := 32

/-- `CASCADING`. -/
def cascading : ℕ := 32

/-- `level_width`, or `run_length`: how many elements the runs of a level have. -/
def levelWidth (level : ℕ) : ℕ := fanout ^ level

theorem levelWidth_pos (level : ℕ) : 0 < levelWidth level := Nat.pow_pos (by decide)

/-- `LowestCascadingLevel`, which counts the levels up to the first one that is wider than
    `CASCADING`. -/
def lowestCascadingLevelFrom (level width : ℕ) : ℕ :=
  if 0 < width ∧ width ≤ cascading then lowestCascadingLevelFrom (level + 1) (width * fanout)
  else level
  termination_by cascading + 1 - width
  decreasing_by
    rw [fanout]
    omega

def lowestCascadingLevel : ℕ := lowestCascadingLevelFrom 0 1

/-! ## Building -/

/-- How many levels `Allocate` puts on top of one that has runs of `childRunLength`. -/
def levelsAbove (count childRunLength : ℕ) : ℕ := if 0 < childRunLength ∧ childRunLength < count then
    levelsAbove count (childRunLength * fanout) + 1
  else 0
  termination_by count - childRunLength
  decreasing_by
    rw [fanout]
    omega

/-- `Allocate`, with the elements of the lowest level as the caller puts them there. -/
def allocate (lowest : List E) [Inhabited E] : MergeSortTree E where
  count := lowest.length
  size := levelsAbove lowest.length 1 + 1
  elements level i := if level = 0 then lowest.getD i default else default
  cascades _ _ := 0

/-- `RunElement`, in the order of `CompareElements`. The `SENTINEL`, with the largest element and run number, comes
    after all others. -/
abbrev RunElement (E : Type*) := WithTop (E ×ₗ ℕ)

/-- The variables of `BuildRun`, `bounds` being the positions in the runs to merge. -/
structure RunBuild (E : Type*) where
  bounds : ℕ → ℕ
  games : ℕ → RunElement E
  winner : RunElement E
  elementIdx : ℕ
  cascadeIdx : ℕ
  elements : ℕ → E
  cascades : ℕ → ℕ

variable (t : MergeSortTree E) (level run : ℕ)

/-- `child_idx`, where a run to merge starts. -/
def childIdx (child : ℕ) : ℕ := run * levelWidth level + child * levelWidth (level - 1)

/-- `bounds[child].second`, the end of a run to merge. -/
def boundEnd (child : ℕ) : ℕ := min (childIdx level run child + levelWidth (level - 1)) t.count

/-- The level has room for cascading pointers. -/
def hasCascades : Bool := cascading < levelWidth level

/-- The cascading pointers of one position are added. -/
def RunBuild.addCascades (s : RunBuild E) : RunBuild E := { s with
    cascades := fun i =>
      if s.cascadeIdx ≤ i ∧ i < s.cascadeIdx + fanout then s.bounds (i - s.cascadeIdx)
      else s.cascades i
    cascadeIdx := s.cascadeIdx + fanout }

/-- Cascading pointers are added if the next position is on a fraction boundary. -/
def RunBuild.fraction (s : RunBuild E) : RunBuild E :=
  if hasCascades level ∧ s.elementIdx % cascading = 0 then s.addCascades else s

/-- `players[child]`, the first element of a run to merge, if it is not empty. -/
def firstPlayer (child : ℕ) : RunElement E :=
  if min (childIdx level run child) t.count ≠ t.boundEnd level run child then
    WithTop.some (toLex (t.elements (level - 1) (childIdx level run child), child))
  else ⊤

/-- The first tournament of `BuildRun`, with a power of two of players. -/
def startRun : RunBuild E :=
  let games := Games.start (fanout / 2) (t.firstPlayer level run) ⟨fun _ => ⊤, fun _ => ⊤⟩
  { bounds := fun child => min (childIdx level run child) t.count
    games := games.losers
    winner := games.winners 0
    elementIdx := run * levelWidth level
    cascadeIdx := fanout * run * (levelWidth level / cascading + 2)
    elements := t.elements level
    cascades := t.cascades level }

/-- The winner is put into the run, and the next element of its run plays. -/
def mergeElement (s : RunBuild E) (element : E) (childRun : ℕ) : RunBuild E := let s := s.fraction level
  let childIdx := s.bounds childRun + 1
  let next : RunElement E := if childIdx < t.boundEnd level run childRun then
      WithTop.some (toLex (t.elements (level - 1) childIdx, childRun))
    else ⊤
  let replayed := Games.replay s.games next (childRun + (fanout - 1))
  { s with
    bounds := update s.bounds childRun childIdx
    games := replayed.1
    winner := replayed.2
    elementIdx := s.elementIdx + 1
    elements := update s.elements s.elementIdx element }

/-- The loop of `BuildRun`, over the elements of the run. -/
def mergeRun : ℕ → RunBuild E → RunBuild E
  | 0, s => s
  | fuel + 1, s =>
    match s.winner with
    | none => s
    | WithTop.some w => mergeRun fuel (t.mergeElement level run s (ofLex w).1 (ofLex w).2)

/-- `BuildRun`. -/
def buildRun : MergeSortTree E := let s := t.mergeRun level run (levelWidth level + 1) (t.startRun level run)
  let s := if hasCascades level then s.addCascades.addCascades else s
  { t with
    elements := update t.elements level s.elements
    cascades := update t.cascades level s.cascades }

/-- The runs of a level are built, as many as `num_runs`. -/
def buildLevel : MergeSortTree E := (range ((t.count + levelWidth level - 1) / levelWidth level)).foldl
    (fun t run => t.buildRun level run) t

/-- `Build`, by a single thread, which takes the runs in the order of `TryNextRun`. -/
def build (lowest : List E) [Inhabited E] : MergeSortTree E := let t := allocate lowest
  (range' 1 (t.size - 1)).foldl buildLevel t

/-! ## Searching below a value -/

/-- A call of the function `AggregateLowerBound` is given. -/
structure AggregateCall where
  level : ℕ
  runBegin : ℕ
  runPos : ℕ
  deriving DecidableEq, Repr

/-- The search for the entry point: `run_idx`, `prev_run_idx.second` and `level`. -/
def findEntry (first second level : ℕ) : ℕ × ℕ × ℕ :=
  if first / fanout = second / fanout then (first / fanout, second, level + 1)
  else findEntry (first / fanout) (second / fanout) (level + 1)
  termination_by first + second
  decreasing_by
    rw [fanout] at *
    omega

/-- The variables of `AggregateLowerBound`, and what it has called. `cascading_idx.first` may wrap around. -/
structure Walk where
  calls : List AggregateCall
  first : ℕ
  second : ℕ
  cascadingFirst : ℤ
  cascadingSecond : ℕ

variable (x : E) (lower upper : ℕ)

/-- A search in a run of `level` between two cascading pointers of the level above. -/
def searchCascade (idx : ℕ) : ℕ :=
  lowerBound (t.elements level) (t.cascades (level + 1) idx) (t.cascades (level + 1) (idx + fanout)) x

/-- The cascading pointers the search goes on with, from the position `idx` in the run that
    has the row `row`. -/
def nextCascade (idx row : ℕ) : ℕ := (idx / cascading + 2 * (row / levelWidth level)) * fanout

/-- The runs on the left side that are completely contained, from right to left. -/
def cascadedLeft (first : ℕ) (idx : ℤ) : List AggregateCall × ℕ × ℤ := if levelWidth level ≤ first - lower then
    let rest := cascadedLeft (first - levelWidth level) (idx - 1)
    (⟨level, first - levelWidth level, t.searchCascade level x idx.toNat⟩ :: rest.1, rest.2)
  else ([], first, idx)
  termination_by first
  decreasing_by
    have := levelWidth_pos level
    omega

/-- The runs on the right side that are completely contained, from left to right. -/
def cascadedRight (second idx : ℕ) : List AggregateCall × ℕ × ℕ := if levelWidth level ≤ upper - second then
    let rest := cascadedRight (second + levelWidth level) (idx + 1)
    (⟨level, second, t.searchCascade level x idx⟩ :: rest.1, rest.2)
  else ([], second, idx)
  termination_by upper - second
  decreasing_by
    have := levelWidth_pos level
    omega

/-- A level that is searched with the pointers of the level above: the partial runs at both sides are the next entry
    points. -/
def cascadedLevel (w : Walk) : Walk :=
  let left := t.cascadedLeft level x lower w.first (w.cascadingFirst + (fanout - 1))
  let right := t.cascadedRight level x upper w.second w.cascadingSecond
  { calls := w.calls ++ left.1 ++ right.1
    first := left.2.1
    second := right.2.1
    cascadingFirst :=
      if left.2.1 ≠ lower then nextCascade level (t.searchCascade level x left.2.2.toNat) lower
      else left.2.2
    cascadingSecond :=
      if right.2.1 ≠ upper then nextCascade level (t.searchCascade level x right.2.2) upper
      else right.2.2 }

/-- The levels that are searched with cascading pointers, below `level`. -/
def cascadedLevels : ℕ → Walk → ℕ × Walk
  | 0, w => (0, w)
  | level + 1, w =>
    let w := t.cascadedLevel level x lower upper w
    if lowestCascadingLevel ≤ level then cascadedLevels level w else (level, w)

/-- The start of the search with cascading pointers, which are shifted to the runs at both sides of `curr`. -/
def startCascade (run prev level : ℕ) (w : Walk) : Walk := let first := run * levelWidth level
  let entryIdx := lowerBound (t.elements level) first (min (first + levelWidth level) t.count) x
  let idx := (entryIdx / cascading + 2 * (first / levelWidth level)) * fanout
  let correction := prev - run * fanout
  { w with
    cascadingFirst := (idx : ℤ) - (fanout - correction : ℕ)
    cascadingSecond := idx + correction }

/-- The runs on the left side of a level without cascading pointers. -/
def plainLeft (first : ℕ) : List AggregateCall × ℕ := if levelWidth level ≤ first - lower then
    let rest := plainLeft (first - levelWidth level)
    (⟨level, first - levelWidth level,
      lowerBound (t.elements level) (first - levelWidth level) first x⟩ :: rest.1, rest.2)
  else ([], first)
  termination_by first
  decreasing_by
    have := levelWidth_pos level
    omega

/-- The runs on the right side of a level without cascading pointers. -/
def plainRight (second : ℕ) : List AggregateCall × ℕ := if levelWidth level ≤ upper - second then
    let rest := plainRight (second + levelWidth level)
    (⟨level, second, lowerBound (t.elements level) second (second + levelWidth level) x⟩ :: rest.1, rest.2)
  else ([], second)
  termination_by upper - second
  decreasing_by
    have := levelWidth_pos level
    omega

/-- The levels below `level` without cascading pointers, but for the last one. -/
def plainLevels : ℕ → Walk → Walk
  | 0, w => w
  | 1, w => w
  | level + 2, w =>
    let left := t.plainLeft (level + 1) x lower w.first
    let right := t.plainRight (level + 1) x upper w.second
    plainLevels (level + 1)
      { w with calls := w.calls ++ left.1 ++ right.1, first := left.2, second := right.2 }

/-- The call for a single position. -/
def leafCall (i : ℕ) : AggregateCall := ⟨0, i, i + if t.elements 0 i < x then 1 else 0⟩

/-- `AggregateLowerBound`, with the calls it makes. -/
def aggregateLowerBound : List AggregateCall := if upper ≤ lower then []
  else
    let entry := findEntry lower (upper - 1) 0
    let start : ℕ × Walk := if lower = upper - 1 then (0, ⟨[], lower, lower, 0, 0⟩)
      else
        let mid := entry.2.1 * levelWidth entry.2.2 / fanout
        (entry.2.2, ⟨[], mid, mid, 0, 0⟩)
    let cascaded := if lowestCascadingLevel < start.1 then
        t.cascadedLevels x lower upper start.1
          (t.startCascade x entry.1 entry.2.1 start.1 start.2)
      else start
    let w := t.plainLevels x lower upper cascaded.1 cascaded.2
    w.calls ++ (range' lower (w.first - lower)).map (t.leafCall x) ++
      (range' w.second (upper - w.second)).map (t.leafCall x)

end MergeSortTree

/-! ## Selecting the n-th element -/

/-- `FrameBounds`. -/
structure FrameBounds where
  start : ℕ
  stop : ℕ
  deriving DecidableEq, Repr

/-- A value lies in a frame. -/
def FrameBounds.contains (f : FrameBounds) (v : ℕ) : Bool := f.start ≤ v && v < f.stop

/-- The frames of a selection (`SubFrames`): up to three, disjoint and in increasing order. -/
structure SubFrames where
  frames : List FrameBounds
  length_le : frames.length ≤ 3
  start_le : ∀ f ∈ frames, f.start ≤ f.stop
  increasing : frames.Pairwise fun f g => f.stop ≤ g.start

namespace MergeSortTree

variable (t : MergeSortTree ℕ) (frames : List FrameBounds)

/-- `matches`: where the frames start and end in a run of `level`, between cascading pointers. -/
def cascadeMatches (level : ℕ) (cascades : List (ℕ × ℕ)) : List (ℕ × ℕ) := zipWith
    (fun f c => (t.searchCascade level f.start c.1, t.searchCascade level f.stop c.2))
    frames cascades

/-- `matched`. -/
def matchedCount (found : List (ℕ × ℕ)) : ℕ := (found.map fun m => m.2 - m.1).sum

/-- The loop over the at most `FANOUT` children of a run, until enough elements are found. -/
def selectChild (level : ℕ) : ℕ → ℕ → ℕ → List (ℕ × ℕ) → ℕ × ℕ × List (ℕ × ℕ)
  | 0, result, n, cascades => (result, n, cascades)
  | fuel + 1, result, n, cascades =>
    let found := t.cascadeMatches frames level cascades
    if n < matchedCount found then
      (result, n, found.map fun m =>
        ((m.1 / cascading + 2 * result) * fanout, (m.2 / cascading + 2 * result) * fanout))
    else
      selectChild level fuel (result + 1) (n - matchedCount found)
        (cascades.map fun c => (c.1 + 1, c.2 + 1))

/-- The levels with cascading pointers: `level_no`, `result` and `n`. -/
def selectCascaded : ℕ → ℕ → ℕ → List (ℕ × ℕ) → ℕ × ℕ × ℕ
  | 0, result, n, _ => (0, result, n)
  | level + 1, result, n, cascades =>
    if lowestCascadingLevel ≤ level + 1 then
      let child := t.selectChild frames (level + 1) fanout result n cascades
      selectCascaded level (child.1 * fanout) child.2.1 child.2.2
    else (level + 1, result, n)

/-- Where the frames start and end in a run without cascading pointers. -/
def runMatches (level rangeBegin rangeEnd : ℕ) : List (ℕ × ℕ) := frames.map fun f =>
    let lowerMatch := lowerBound (t.elements level) rangeBegin rangeEnd f.start
    (lowerMatch, lowerBound (t.elements level) lowerMatch rangeEnd f.stop)

/-- Goes over the runs of a level without cascading pointers: `result` and `n`. The last run is
    not searched. -/
def selectRun (level rangeBegin result n : ℕ) : ℕ × ℕ := if rangeBegin + levelWidth level < t.count then
    let matched := matchedCount
      (t.runMatches frames level rangeBegin (rangeBegin + levelWidth level))
    if n < matched then (result, n)
    else selectRun level (rangeBegin + levelWidth level) (result + 1) (n - matched)
  else (result, n)
  termination_by t.count - rangeBegin
  decreasing_by
    have := levelWidth_pos level
    omega

/-- The levels without cascading pointers: `result` and `n`. -/
def selectPlain : ℕ → ℕ → ℕ → ℕ × ℕ
  | 0, result, n => (result, n)
  | level + 1, result, n =>
    let run := t.selectRun frames (level + 1) (result * levelWidth (level + 1)) result n
    selectPlain level (run.1 * fanout) run.2

/-- The scan of the last level. -/
def scanLeaves (limit result n : ℕ) : ℕ × ℕ := if result < limit then
    let n := n - frames.countP fun f => f.contains (t.elements 0 result)
    if n = 0 then (result, n) else scanLeaves limit (result + 1) n
  else (result, n)
  termination_by limit - result

/-- `SelectNth`. -/
def selectNth (n : ℕ) : ℕ × ℕ := if t.size < 2 then (0, 0)
  else
    let levelNo := t.size - 2
    let top := t.elements (levelNo + 1)
    let cascaded := if lowestCascadingLevel < levelNo then
        t.selectCascaded frames levelNo 0 n (frames.map fun f =>
          (lowerBound top 0 t.count f.start / cascading * fanout,
            lowerBound top 0 t.count f.stop / cascading * fanout))
      else (levelNo, 0, n)
    let plain := t.selectPlain frames cascaded.1 cascaded.2.1 cascaded.2.2
    t.scanLeaves frames (min (plain.1 + fanout) t.count) plain.1 (plain.2 + 1)

end MergeSortTree

end WfOpt

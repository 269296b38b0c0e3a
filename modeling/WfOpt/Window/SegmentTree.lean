import WfOpt.Window.Group

/-!
# The segment tree

An aggregate over a frame is computed from aggregates of blocks of rows (`WindowSegmentTree`): the nodes of a tree
have the aggregates of up to 16 nodes of the level below. States are changed in batches, applied when the queue is
full, or when the chunk the rows are in is left (`flushStates`).
-/

namespace WfOpt

open List Function

/-- `TREE_FANOUT`. -/
def treeFanout : ℕ := 16

/-- `parent_begin`: the first node of the next level that is not before `b`. -/
def parentBegin (b : ℕ) : ℕ := if b ≠ b / treeFanout * treeFanout then b / treeFanout + 1 else b / treeFanout

/-- `WindowExcludeMode`. -/
inductive WindowExcludeMode
  | noOther
  | currentRow
  | group
  | ties
  deriving DecidableEq, Repr

/-- `FramePart`. -/
inductive FramePart
  | full
  | left
  | right
  deriving DecidableEq, Repr

/-- An aggregate function: its states form a monoid, with `initialize`, `combine` and, for a single row, `update`,
    which is commutative for `NOT_ORDER_DEPENDENT` functions. -/
structure AggregateFunction (ρ σ τ : Type*) [Monoid σ] where
  rowState : ρ → σ
  finalize : σ → τ
  orderInsensitive : Bool
  comm : orderInsensitive = true → ∀ a b : σ, a * b = b * a

/-- An aggregate function, and rows in chunks, with a filter, if there is one. -/
structure WindowSegmentTree (ρ σ τ : Type*) [Monoid σ] where
  aggr : AggregateFunction ρ σ τ
  collection : ChunkedRows
  row : ℕ → ρ
  filterMask : Option (ℕ → Bool)
  excludeMode : WindowExcludeMode

/-! ## Reading rows -/

/-- A `WindowCursor`, given by the number of chunks up to the one that has been read. -/
structure WindowCursor where
  chunkIndex : ℕ

namespace WindowCursor

variable (rows : ChunkedRows) (row : ℕ) (c : WindowCursor)

def currentRowIndex : ℕ := rows.position (c.chunkIndex - 1)

def nextRowIndex : ℕ := rows.position c.chunkIndex

/-- `RowIsVisible`. -/
def rowIsVisible : Bool := row < c.nextRowIndex rows && c.currentRowIndex rows ≤ row

/-- `RowOffset`. -/
def rowOffset : ℕ := row - c.currentRowIndex rows

/-- The first loop of `Seek`, over the chunks before. -/
def seekBack : ℕ → ℕ
  | 0 => 0
  | chunkIndex + 1 => if row < rows.position chunkIndex then seekBack chunkIndex else chunkIndex + 1

/-- The second loop of `Seek`, over the chunks behind. -/
def seekForward (chunkIndex : ℕ) : ℕ := if chunkIndex < rows.chunks.length ∧ rows.position chunkIndex ≤ row then
    seekForward (chunkIndex + 1)
  else chunkIndex
  termination_by rows.chunks.length - chunkIndex

/-- `Seek`. -/
def seek : WindowCursor :=
  if c.rowIsVisible rows row then c else ⟨seekForward rows row (seekBack rows row c.chunkIndex)⟩

end WindowCursor

/-! ## States -/

/-- A pointer to a state: of a node of the tree, or of a frame that is evaluated. -/
inductive StatePtr
  | node (i : ℕ)
  | frame (rid : ℕ)
  deriving DecidableEq, Repr

/-- A state is multiplied. -/
def mulAt {σ : Type*} [Monoid σ] (states : StatePtr → σ) (target : StatePtr) (x : σ) : StatePtr → σ :=
  fun ptr => if ptr = target then states ptr * x else states ptr

/-- `WindowSegmentTreePart`, with what is queued: offsets of rows (`filter_sel`) or nodes (`statel`), each with its
    target (`statep`). -/
structure SegmentTreePart (σ : Type*) where
  states : StatePtr → σ
  cursor : WindowCursor
  leaves : List (StatePtr × ℕ)
  nodes : List (StatePtr × StatePtr)
  rightStack : ℕ → ℕ × ℕ

/-- `flush_count`. -/
def SegmentTreePart.flushCount {σ : Type*} (p : SegmentTreePart σ) : ℕ := p.leaves.length + p.nodes.length

/-- `levels_flat_start`, from a level on: where the nodes of the levels start. -/
def levelsFlatStartFrom (levelSize offset : ℕ) : List ℕ := if 1 < levelSize then
    offset :: levelsFlatStartFrom ((levelSize + treeFanout - 1) / treeFanout)
      (offset + (levelSize + treeFanout - 1) / treeFanout)
  else [offset]
  termination_by levelSize
  decreasing_by
    rw [treeFanout]
    omega

namespace WindowSegmentTree

variable {ρ σ τ : Type*} [Monoid σ] (T : WindowSegmentTree ρ σ τ) (p : SegmentTreePart σ)

def levelsFlatStart : List ℕ := levelsFlatStartFrom T.collection.count 0

/-- `FlushStates`. -/
def flushStates (combining : Bool) : SegmentTreePart σ := if p.flushCount = 0 then p
  else
    { p with
      states := if combining then p.nodes.foldl (fun states e => mulAt states e.1 (states e.2)) p.states
        else
          p.leaves.foldl (fun states e => mulAt states e.1
            (T.aggr.rowState (T.row (p.cursor.currentRowIndex T.collection + e.2)))) p.states
      leaves := []
      nodes := [] }

/-- The queue is flushed when it is full. -/
def flushFull (combining : Bool) : SegmentTreePart σ :=
  if standardVectorSize ≤ p.flushCount then T.flushStates p combining else p

/-- A row is queued. -/
def pushLeaf (target : StatePtr) (offset : ℕ) : SegmentTreePart σ :=
  T.flushFull { p with leaves := p.leaves ++ [(target, offset)] } false

/-- A state is queued. -/
def pushNode (target source : StatePtr) : SegmentTreePart σ :=
  T.flushFull { p with nodes := p.nodes ++ [(target, source)] } true

/-- `ExtractFrame`. -/
def extractFrame (b e : ℕ) (target : StatePtr) : SegmentTreePart σ := match T.filterMask with
  | none =>
    let offset := p.cursor.rowOffset T.collection b
    (range (e - b)).foldl (fun p i => T.pushLeaf p target (offset + i)) p
  | some mask =>
    (range' b (e - b)).foldl (fun p i =>
      if mask i then T.pushLeaf p target (p.cursor.rowOffset T.collection i) else p) p

/-- The chunk of a row is read, if it has not been. What is queued are offsets in the chunk
    before. -/
def seekRow (row : ℕ) : SegmentTreePart σ := if p.cursor.rowIsVisible T.collection row then p
  else { T.flushStates p false with cursor := p.cursor.seek T.collection row }

/-- The loop of `WindowSegmentValue`, of at most as many turns as there are leaves. -/
def leafLoop (target : StatePtr) (e : ℕ) : ℕ → ℕ → SegmentTreePart σ → SegmentTreePart σ
  | 0, _, p => p
  | fuel + 1, b, p =>
    if b < e then
      let p := T.seekRow p b
      let next := min e (p.cursor.nextRowIndex T.collection)
      leafLoop target e fuel next (T.extractFrame p b next target)
    else p

/-- `WindowSegmentValue`. -/
def windowSegmentValue (l b e : ℕ) (target : StatePtr) : SegmentTreePart σ := if b = e then p
  else if l = 0 then T.leafLoop target e (e - b) b p
  else
    (range (e - b)).foldl (fun p i =>
      T.pushNode p target (.node (b + T.levelsFlatStart.getD (l - 1) 0 + i))) p

/-! ## Building the tree -/

/-- A part that has not been used. -/
def newPart (tree : ℕ → σ) : SegmentTreePart σ where
  states
    | .node i => tree i
    | .frame _ => 1
  cursor := ⟨0⟩
  leaves := []
  nodes := []
  rightStack _ := (0, 0)

/-- The number of nodes of a level, as `Finalize` computes it. -/
def levelSize (l : ℕ) : ℕ := if l = 0 then T.collection.count
  else T.levelsFlatStart.getD l 0 - T.levelsFlatStart.getD (l - 1) 0

/-- A node of the next level is built. -/
def buildNode (l buildIdx : ℕ) : SegmentTreePart σ := let pos := buildIdx * treeFanout
  T.flushStates (T.windowSegmentValue p l pos (min (T.levelSize l) (pos + treeFanout))
    (.node (T.levelsFlatStart.getD l 0 + buildIdx))) (decide (0 < l))

/-- The loop of `Finalize` over the levels, for a single thread. -/
def finalizeLoop (l : ℕ) (p : SegmentTreePart σ) : SegmentTreePart σ :=
  if l < T.levelsFlatStart.length ∧ 1 < T.levelSize l then
    finalizeLoop (l + 1) ((range ((T.levelSize l + treeFanout - 1) / treeFanout)).foldl
      (fun p buildIdx => T.buildNode p l buildIdx) p)
  else p
  termination_by T.levelsFlatStart.length - l

/-- `Finalize`. -/
def finalize : ℕ → σ := let p := T.finalizeLoop 0 (newPart fun _ => 1)
  fun i => p.states (.node i)

/-! ## Evaluating frames -/

section Evaluate

variable (begins ends bounds : ℕ → ℕ) (framePart : FramePart)

/-- `FrameBegins`. -/
def frameBegins : ℕ → ℕ := if framePart = .right then bounds else begins

/-- `FrameEnds`. -/
def frameEnds : ℕ → ℕ := if framePart = .left then bounds else ends

/-- Where the part of a frame begins. -/
def partBegin (rid curRow : ℕ) : ℕ :=
  max (if framePart = .right ∧ T.excludeMode = .currentRow then curRow + 1 else begins rid)
    (frameBegins begins bounds framePart rid)

/-- Where the part of a frame ends. -/
def partEnd (rid curRow : ℕ) : ℕ :=
  min (if framePart = .left ∧ T.excludeMode = .currentRow then curRow else ends rid)
    (frameEnds ends bounds framePart rid)

/-- The variables of `EvaluateUpperLevels`. -/
structure UpperState (σ : Type*) where
  part : SegmentTreePart σ
  prevState : Option ℕ
  prevBegin : ℕ
  prevEnd : ℕ

/-- The frame, the state of which is shared. -/
def UpperState.shared (u : UpperState σ) (l b e : ℕ) : Option ℕ :=
  if l = 1 ∧ b = u.prevBegin ∧ e = u.prevEnd then u.prevState else none

/-- The state of a frame is to be shared by those after it. -/
def markShared (u : UpperState σ) (l b e rid : ℕ) : UpperState σ := if T.aggr.orderInsensitive ∧ l = 1 then
    { u with prevState := some rid, prevBegin := b, prevEnd := e }
  else u

/-- `WindowSegmentValue` in `EvaluateUpperLevels`, which skips level 0. -/
def upperValue (u : UpperState σ) (l b e rid : ℕ) : UpperState σ :=
  if l ≠ 0 then { u with part := T.windowSegmentValue u.part l b e (.frame rid) } else u

/-- The nodes on the left side that are not in a node of the next level. -/
def leftValue (u : UpperState σ) (l b rid : ℕ) : UpperState σ := let groupBegin := b / treeFanout * treeFanout
  if b ≠ groupBegin then T.upperValue u l b (groupBegin + treeFanout) rid else u

/-- The loop of `EvaluateUpperLevels` over the levels, up to `max_level`. It returns
    `right_max`, too. -/
def upperLoop (rid : ℕ) : ℕ → ℕ → ℕ → ℕ → ℕ → UpperState σ → UpperState σ × ℕ
  | 0, _, _, _, rightMax, u => (u, rightMax)
  | fuel + 1, l, b, e, rightMax, u =>
    match u.shared l b e with
    | some prev => ({ u with part := T.pushNode u.part (.frame rid) (.frame prev) }, rightMax)
    | none =>
      let u := T.markShared u l b e rid
      let parentEnd := e / treeFanout
      if b / treeFanout = parentEnd then (T.upperValue u l b e rid, rightMax)
      else
        let u := T.leftValue u l b rid
        let groupEnd := parentEnd * treeFanout
        if e ≠ groupEnd ∧ l ≠ 0 then
          if T.aggr.orderInsensitive then
            upperLoop rid fuel (l + 1) (parentBegin b) parentEnd rightMax
              (T.upperValue u l groupEnd e rid)
          else
            upperLoop rid fuel (l + 1) (parentBegin b) parentEnd l
              { u with part := { u.part with
                  rightStack := update u.part.rightStack l (groupEnd, e) } }
        else upperLoop rid fuel (l + 1) (parentBegin b) parentEnd rightMax u

/-- The right side values of a level are added, and taken off the stack. -/
def rightStep (rid l : ℕ) : SegmentTreePart σ := let entry := p.rightStack l
  if entry.2 ≠ 0 then
    { T.windowSegmentValue p l entry.1 entry.2 (.frame rid) with
      rightStack := update p.rightStack l (0, 0) }
  else p

/-- The loop of `EvaluateUpperLevels` over the right side values. -/
def rightLoop (rid : ℕ) : ℕ → SegmentTreePart σ → SegmentTreePart σ
  | 0, p => p
  | l + 1, p => rightLoop rid l (T.rightStep p rid (l + 1))

/-- An iteration of `EvaluateUpperLevels` over the frames. -/
def upperFrame (rowIdx : ℕ) (u : UpperState σ) (rid : ℕ) : UpperState σ :=
  let b := T.partBegin begins bounds framePart rid (rowIdx + rid)
  let e := T.partEnd ends bounds framePart rid (rowIdx + rid)
  if e ≤ b then u
  else
    let r := T.upperLoop rid (T.levelsFlatStart.length + 1) 0 b e 0 u
    { r.1 with part := T.rightLoop rid r.2 r.1.part }

/-- `EvaluateUpperLevels`. -/
def evaluateUpperLevels (count rowIdx : ℕ) : SegmentTreePart σ :=
  T.flushStates ((range count).foldl (T.upperFrame begins ends bounds framePart rowIdx) ⟨p, none, 1, 0⟩).part true

/-- An iteration of `EvaluateLeaves`. -/
def leavesFrame (rowIdx : ℕ) (leafPart : FramePart) (p : SegmentTreePart σ) (rid : ℕ) : SegmentTreePart σ :=
  let curRow := rowIdx + rid
  let b := T.partBegin begins bounds framePart rid curRow
  let e := T.partEnd ends bounds framePart rid curRow
  let computeLeft := leafPart ≠ .right
  let computeRight := leafPart ≠ .left
  let addCurrRow := computeLeft ∧ framePart = .right ∧ T.excludeMode = .ties
  let p := if addCurrRow ∧ frameBegins begins bounds framePart rid ≤ curRow ∧
        curRow < frameEnds ends bounds framePart rid then
      T.windowSegmentValue p 0 curRow (curRow + 1) (.frame rid)
    else p
  if e ≤ b then p
  else
    let parentBegin := b / treeFanout
    let parentEnd := e / treeFanout
    if parentBegin = parentEnd then
      if computeLeft then T.windowSegmentValue p 0 b e (.frame rid) else p
    else
      let groupBegin := parentBegin * treeFanout
      let groupEnd := parentEnd * treeFanout
      let p := if b ≠ groupBegin ∧ computeLeft then
          T.windowSegmentValue p 0 b (groupBegin + treeFanout) (.frame rid)
        else p
      if e ≠ groupEnd ∧ computeRight then T.windowSegmentValue p 0 groupEnd e (.frame rid) else p

/-- `EvaluateLeaves`. -/
def evaluateLeaves (count rowIdx : ℕ) (leafPart : FramePart) : SegmentTreePart σ :=
  T.flushStates ((range count).foldl (T.leavesFrame begins ends bounds framePart rowIdx leafPart) p) false

/-- `Initialize`. -/
def initializeStates (count : ℕ) : SegmentTreePart σ := { p with
    states
      | .node i => p.states (.node i)
      | .frame rid => if rid < count then 1 else p.states (.frame rid) }

/-- `WindowSegmentTreePart::Evaluate`. -/
def evaluatePart (count rowIdx : ℕ) : SegmentTreePart σ := let p := initializeStates p count
  if T.aggr.orderInsensitive then
    let p := T.evaluateUpperLevels p begins ends bounds framePart count rowIdx
    T.evaluateLeaves p begins ends bounds framePart count rowIdx .full
  else
    let p := T.evaluateLeaves p begins ends bounds framePart count rowIdx .left
    let p := T.evaluateUpperLevels p begins ends bounds framePart count rowIdx
    T.evaluateLeaves p begins ends bounds framePart count rowIdx .right

end Evaluate

end WindowSegmentTree

/-- The bounds of a row. -/
structure WindowBounds where
  frameBegin : ℕ
  frameEnd : ℕ
  peerBegin : ℕ
  peerEnd : ℕ
  deriving Inhabited

/-- The bounds of the rows of a chunk, of `n` rows in all: frames end where the rows do, and a row is its own peer. -/
structure BoundsChunk (n : ℕ) where
  rowIdx : ℕ
  bounds : List WindowBounds
  frameEnd_le : ∀ b ∈ bounds, b.frameEnd ≤ n
  peers : ∀ rid < bounds.length, (bounds.getD rid default).peerBegin ≤ rowIdx + rid ∧
    rowIdx + rid < (bounds.getD rid default).peerEnd

/-- `WindowSegmentTreeLocalState`, with the parts that are there. -/
structure SegmentTreeLocal (σ : Type*) where
  part : Option (SegmentTreePart σ)
  rightPart : Option (SegmentTreePart σ)

namespace WindowSegmentTree

variable {ρ σ τ : Type*} [Monoid σ] (T : WindowSegmentTree ρ σ τ)

/-- `WindowSegmentTreeLocalState::Evaluate`. -/
def evaluate (tree : ℕ → σ) (lstate : SegmentTreeLocal σ) (chunk : BoundsChunk T.collection.count) :
    List τ × SegmentTreeLocal σ :=
  let count := chunk.bounds.length
  let windowBegin rid := (chunk.bounds.getD rid default).frameBegin
  let windowEnd rid := (chunk.bounds.getD rid default).frameEnd
  let peerBegin rid := (chunk.bounds.getD rid default).peerBegin
  let peerEnd rid := (chunk.bounds.getD rid default).peerEnd
  let part := lstate.part.getD (newPart tree)
  if T.excludeMode ≠ .noOther then
    let excludeCurrent := T.excludeMode = .currentRow
    let middle := if excludeCurrent then peerEnd else peerBegin
    let part := T.evaluatePart part windowBegin middle windowEnd .left count chunk.rowIdx
    let rightPart := lstate.rightPart.getD (newPart tree)
    let middle := if excludeCurrent then peerBegin else peerEnd
    let rightPart := T.evaluatePart rightPart middle windowEnd windowBegin .right count chunk.rowIdx
    let part := { part with
      states := fun ptr =>
        match ptr with
        | .node i => part.states (.node i)
        | .frame rid =>
          if rid < count then part.states (.frame rid) * rightPart.states (.frame rid)
          else part.states (.frame rid) }
    ((range count).map fun rid => T.aggr.finalize (part.states (.frame rid)), ⟨some part, some rightPart⟩)
  else
    let part := T.evaluatePart part windowBegin windowEnd (fun _ => 0) .full count chunk.rowIdx
    ((range count).map fun rid => T.aggr.finalize (part.states (.frame rid)), ⟨some part, lstate.rightPart⟩)

/-- The chunks a thread evaluates, one after the other. -/
def evaluateChunks (tree : ℕ → σ) : SegmentTreeLocal σ → List (BoundsChunk T.collection.count) → List (List τ)
  | _, [] => []
  | lstate, chunk :: chunks =>
    (T.evaluate tree lstate chunk).1 :: evaluateChunks tree (T.evaluate tree lstate chunk).2 chunks

end WindowSegmentTree

end WfOpt

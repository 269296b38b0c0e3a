import WfOpt.Basic
import WfOpt.Lib.LinkedList
import WfOpt.Lib.SortedTable
import WfOpt.Transaction.Manager

/-!
# Updates

The updates of a vector are a chain of nodes (`UpdateInfo`). The root has the newest values of all rows that have
been updated. Behind it, each transaction has a node with the values that its rows had before, the newest node first:
a transaction that does not see what another one wrote takes them back.
-/

namespace WfOpt

open List Option Function

/-- The data of a row of a column: nothing in particular if the row is NULL. -/
abbrev Cell (T : Type*) := Option T

/-- `UpdateInfo`: rows of the vector with their values. -/
structure UpdateInfo (T : Type*) where
  versionNumber : ℕ
  tuples : List (ℕ × Cell T)

/-- The updates of a vector (`UpdateNode::info`): the root, and all nodes by their pointers, linked or not. -/
structure UpdateChain (T : Type*) where
  root : Option ℕ
  info : ℕ → UpdateInfo T
  links : Links
  allocated : ℕ

/-- `UpdateSegment`: the updates of the vectors of a column segment, which starts at a row. -/
structure UpdateSegment (T : Type*) where
  start : ℕ
  chains : ℕ → UpdateChain T

variable {T : Type*}

/-! ## Reads -/

/-- `AppliesToTransaction`: the transaction does not see what was written, and takes the values of the
    node. -/
def UpdateInfo.appliesToTransaction (info : UpdateInfo T) (t : TransactionData) : Bool :=
  t.startTime < info.versionNumber && info.versionNumber ≠ t.transactionId

/-- `MergeUpdateInfo`: if all rows of the vector are in the node, their values are copied. -/
def mergeUpdateInfo (result : ℕ → Cell T) (info : UpdateInfo T) : ℕ → Cell T :=
  if info.tuples.length = standardVectorSize then fun i =>
    match info.tuples[i]? with
    | some p => p.2
    | none => result i
  else info.tuples.foldl (fun result p => update result p.1 p.2) result

/-- The loop of `MergeUpdateInfoRange`. -/
def mergeUpdateInfoRange (first last resultOffset : ℕ) : List (ℕ × Cell T) → (ℕ → Cell T) → ℕ → Cell T
  | [], result => result
  | p :: l, result =>
    if p.1 < first then mergeUpdateInfoRange first last resultOffset l result
    else if last ≤ p.1 then result
    else mergeUpdateInfoRange first last resultOffset l
      (update result (resultOffset + p.1 - first) p.2)

namespace UpdateChain

/-- The nodes of the chain from a node on, as the loops find them. -/
def nodes (c : UpdateChain T) (p : Option ℕ) : Option (List ℕ) := c.links.walk c.allocated p

/-- `UpdatesForTransaction`: the nodes whose values the transaction takes, in order. -/
def updatesForTransaction (c : UpdateChain T) (t : TransactionData) (root : ℕ) : Option (List (UpdateInfo T)) :=
  (c.nodes (some root)).map fun l => (l.map c.info).filter fun info => info.appliesToTransaction t

/-- `FetchUpdates`, applied to the values of the column -/
def fetchUpdates (c : UpdateChain T) (t : TransactionData) (result : ℕ → Cell T) : Option (ℕ → Cell T) :=
  match c.root with
  | none => some result
  | some root => (c.updatesForTransaction t root).map fun infos => infos.foldl mergeUpdateInfo result

/-- `FetchRow`, applied to the value of the column -/
def fetchRow (c : UpdateChain T) (t : TransactionData) (row : ℕ) (result : Cell T) : Option (Cell T) :=
  match c.root with
  | none => some result
  | some root => (c.updatesForTransaction t root).map fun infos =>
      infos.foldl (fun result info => (lookup row info.tuples).getD result) result

end UpdateChain

/-- `FetchCommittedRange`: the newest values of rows of one or more vectors, applied to those of the column. -/
def UpdateSegment.fetchCommittedRange (s : UpdateSegment T) (startRow count : ℕ) (result : ℕ → Cell T) :
    ℕ → Cell T :=
  let endRow := startRow + count
  let startVector := startRow / standardVectorSize
  let endVector := (endRow - 1) / standardVectorSize
  ((range (endVector + 1 - startVector)).map (startVector + ·)).foldl (fun result v =>
    match (s.chains v).root with
    | none => result
    | some root =>
      let startInVector := if v = startVector then startRow - startVector * standardVectorSize else 0
      let endInVector := if v = endVector then endRow - endVector * standardVectorSize else standardVectorSize
      let resultOffset := v * standardVectorSize + startInVector - startRow
      mergeUpdateInfoRange startInVector endInVector resultOffset ((s.chains v).info root).tuples result)
    result

/-! ## Rollbacks and cleanups -/

/-- The loop of `RollbackUpdate` over the rows of a node: the root gets their old values. -/
def rollbackLoop : List (ℕ × Cell T) → List (ℕ × Cell T) → List (ℕ × Cell T)
  | base, [] => base
  | base, p :: rollback =>
    base.takeWhile (·.1 < p.1) ++ match base.dropWhile (·.1 < p.1) with
      | [] => []
      | q :: rest => rollbackLoop ((q.1, p.2) :: rest) rollback

namespace UpdateChain

/-- The rows of a node are replaced. -/
def setTuples (c : UpdateChain T) (p : ℕ) (tuples : List (ℕ × Cell T)) : UpdateChain T :=
  { c with info := update c.info p { c.info p with tuples } }

/-- The version of a node is replaced: its updates are committed, or the commit is reverted. -/
def setVersion (c : UpdateChain T) (p id : ℕ) : UpdateChain T :=
  { c with info := update c.info p { c.info p with versionNumber := id } }

/-- `CleanupUpdate` -/
def cleanupUpdate (c : UpdateChain T) (p : ℕ) : UpdateChain T := { c with links := c.links.unlink p }

/-- `RollbackUpdate` -/
def rollbackUpdate (c : UpdateChain T) (p : ℕ) : UpdateChain T := match c.root with
  | none => c
  | some root =>
    (c.setTuples root (rollbackLoop (c.info root).tuples (c.info p).tuples)).cleanupUpdate p

end UpdateChain

/-! ## Updates -/

/-- The values that rows are updated to; those of columns that are NULL are not stored. -/
structure UpdateVector (T : Type*) where
  count : ℕ
  ids : ℕ → ℕ
  data : ℕ → Cell T

/-- How indexes are sorted by their rows (`std::sort`); the order of indexes of the same row is not
    specified. -/
structure IndexSort where
  sort : (ℕ → ℕ) → List ℕ → List ℕ
  perm : ∀ ids l, (sort ids l).Perm l
  sorted : ∀ ids l, (sort ids l).Pairwise fun i j => ids i ≤ ids j

/-- The indexes whose row is not the one of the index before. -/
def eliminateDuplicates (ids : ℕ → ℕ) : ℕ → List ℕ → List ℕ
  | _, [] => []
  | prev, i :: l =>
    if ids prev ≠ ids i then i :: eliminateDuplicates ids i l else eliminateDuplicates ids i l

/-- `SortSelectionVector` -/
def sortSelectionVector (sort : IndexSort) (ids : ℕ → ℕ) (sel : List ℕ) : List ℕ :=
  if sel.Pairwise fun i j => ids i < ids j then sel
  else
    match sort.sort ids sel with
    | [] => []
    | first :: rest => first :: eliminateDuplicates ids first rest

/-- The value of a row of the column is the new one already. -/
def unchanged [BEq T] : Cell T → Cell T → Bool
  | some x, some y => y == x
  | _, _ => false

/-- `TemplatedGetEffectiveUpdates`: rows that already have their value are skipped. -/
def getEffectiveUpdates [BEq T] (base : ℕ → Cell T) (writes : List (ℕ × Cell T)) : List (ℕ × Cell T) :=
  writes.filter fun p => !unchanged (base p.1) p.2

/-- The loop that compares the rows of an update with those of a node. -/
def conflictLoop : ℕ → List ℕ → List ℕ → Bool
  | n + 1, id :: ids, tuple :: tuples =>
    if id = tuple then true
    else if id < tuple then conflictLoop n ids (tuple :: tuples)
    else conflictLoop n (id :: ids) tuples
  | _, _, _ => false

/-- `CheckForConflicts`: whether there is a conflict, or else the node of the transaction, if it has one. -/
def checkForConflicts (info : ℕ → UpdateInfo T) (t : TransactionData) (ids : List ℕ) :
    List ℕ → Option ℕ → Except String (Option ℕ)
  | [], node => .ok node
  | p :: l, node =>
    if (info p).versionNumber = t.transactionId then checkForConflicts info t ids l (some p)
    else if t.startTime < (info p).versionNumber &&
        conflictLoop (ids.length + (info p).tuples.length) ids ((info p).tuples.map Prod.fst) then
      .error "Conflict on update!"
    else checkForConflicts info t ids l node

/-- The first loop of `MergeUpdateLoopInternal`: the old values, from the node of the transaction, the root or the
    column. -/
def mergeOld (base : ℕ → Cell T) : List ℕ → List (ℕ × Cell T) → List (ℕ × Cell T) → List (ℕ × Cell T)
  | [], update, _ => update
  | id :: ids, update, root =>
    update.takeWhile (·.1 < id) ++ match update.dropWhile (·.1 < id) with
      | [] =>
        (id, oldValue base id (root.dropWhile (·.1 < id))) :: mergeOld base ids [] (root.dropWhile (·.1 < id))
      | q :: rest =>
        if q.1 = id then q :: mergeOld base ids rest root
        else
          (id, oldValue base id (root.dropWhile (·.1 < id))) ::
            mergeOld base ids (q :: rest) (root.dropWhile (·.1 < id))
where
  /-- The value of a row in the rest of the root, or else in the column. -/
  oldValue (base : ℕ → Cell T) (id : ℕ) : List (ℕ × Cell T) → Cell T
    | [] => base id
    | q :: _ => if q.1 = id then q.2 else base id

/-- `MergeLoop`: the new values of rows, and those of the others; one of the lists gets shorter in each
    iteration. -/
def mergeLoop : ℕ → List (ℕ × Cell T) → List (ℕ × Cell T) → List (ℕ × Cell T)
  | n + 1, a :: as, b :: bs =>
    if a.1 = b.1 then a :: mergeLoop n as bs
    else if a.1 < b.1 then a :: mergeLoop n as (b :: bs)
    else b :: mergeLoop n (a :: as) bs
  | _, as, bs => as ++ bs

/-- What an update returns: an error, or the vector and the node in the undo buffer of the transaction. -/
structure UpdateResult (T : Type*) where
  segment : UpdateSegment T
  error : Option String
  created : Option (ℕ × ℕ)

namespace UpdateChain

/-- The node of a transaction, which gets one if it has none. -/
def createNode (c : UpdateChain T) (t : TransactionData) (root : ℕ) : UpdateChain T := { c with
    info := update c.info c.allocated ⟨t.transactionId, []⟩
    links := c.links.insertAfter root c.allocated
    allocated := c.allocated + 1 }

/-- `MergeUpdateLoopInternal` -/
def mergeUpdate (c : UpdateChain T) (base : ℕ → Cell T) (root node : ℕ) (writes : List (ℕ × Cell T)) :
    UpdateChain T :=
  let rootTuples := (c.info root).tuples
  let old := mergeOld base (writes.map Prod.fst) (c.info node).tuples rootTuples
  (c.setTuples node old).setTuples root (mergeLoop (writes.length + rootTuples.length) writes rootTuples)

/-- The first update of a vector: the root has the new values, the node of the transaction the old ones. -/
def createRoot (c : UpdateChain T) (base : ℕ → Cell T) (t : TransactionData) (writes : List (ℕ × Cell T)) :
    UpdateChain T :=
  let root := c.allocated
  let node := c.allocated + 1
  { root := some root
    info := update (update c.info root ⟨transactionIdStart - 1, writes⟩) node
      ⟨t.transactionId, writes.map fun p => (p.1, base p.1)⟩
    links := ⟨update (update c.links.next root (some node)) node none,
      update (update c.links.prev root none) node (some root)⟩
    allocated := c.allocated + 2 }

/-- `Update` of the rows of a vector, up to those that are skipped. -/
def update [BEq T] (c : UpdateChain T) (base : ℕ → Cell T) (t : TransactionData)
    (writes : List (ℕ × Cell T)) : Option (Except String (UpdateChain T × Option ℕ)) :=
  match c.root with
  | none =>
    let writes := getEffectiveUpdates base writes
    if writes.isEmpty then some (.ok (c, none))
    else some (.ok (c.createRoot base t writes, some (c.allocated + 1)))
  | some root =>
    (c.nodes (c.links.next root)).map fun l =>
      match checkForConflicts c.info t (writes.map Prod.fst) l none with
      | .error message => .error message
      | .ok (some node) => .ok (c.mergeUpdate base root node writes, none)
      | .ok none =>
        .ok ((c.createNode t root).mergeUpdate base root c.allocated writes, some c.allocated)

end UpdateChain

namespace UpdateSegment

/-- `statistics_update_function`: the indexes of the values that are not NULL. -/
def selectValid (u : UpdateVector T) : List ℕ := (range u.count).filter fun i => (u.data i).isSome

/-- The vector of an update, and its rows with their values. -/
def writesOf (s : UpdateSegment T) (sort : IndexSort) (u : UpdateVector T) : Option (ℕ × List (ℕ × Cell T)) :=
  match sortSelectionVector sort u.ids (selectValid u) with
  | [] => none
  | first :: rest =>
    let vectorIndex := (u.ids first - s.start) / standardVectorSize
    let vectorOffset := s.start + vectorIndex * standardVectorSize
    some (vectorIndex, (first :: rest).map fun i => (u.ids i - vectorOffset, u.data i))

/-- `Update` -/
def update [BEq T] (s : UpdateSegment T) (sort : IndexSort) (base : ℕ → ℕ → Cell T) (t : TransactionData)
    (u : UpdateVector T) : Option (UpdateResult T) :=
  match s.writesOf sort u with
  | none => some ⟨s, none, none⟩
  | some (v, writes) =>
    ((s.chains v).update (base v) t writes).map fun
      | .error message => ⟨s, some message, none⟩
      | .ok (c, node) =>
        ⟨{ s with chains := Function.update s.chains v c }, none, node.map fun p => (v, p)⟩

end UpdateSegment

/-! ## What the loops do -/

section Loops

variable {l : List (ℕ × Cell T)} {base result : ℕ → Cell T} {k : ℕ}

/-- A table of all rows of a vector has the rows in order. -/
theorem Increasing.fst_eq (h : Increasing l) {n m : ℕ} (hlen : l.length = n)
    (hrow : ∀ p ∈ l, m ≤ p.1 ∧ p.1 < m + n) : ∀ {i : ℕ} (hi : i < l.length), l[i].1 = m + i := by
  induction l generalizing n m with
  | nil => exact fun hi => absurd hi (Nat.not_lt_zero _)
  | cons p l ih =>
    -- the rest has larger rows, and all of them fit
    have hrst : ∀ q ∈ l, m + 1 ≤ q.1 ∧ q.1 < m + 1 + (n - 1) := fun q hq => by
      have hp := hrow p mem_cons_self
      have hlt := h.lt hq
      have hq := hrow q (mem_cons_of_mem _ hq)
      omega
    have hl : l.length = n - 1 := by
      rw [← hlen]
      rfl
    have ih := fun {i} hi => ih h.tail hl hrst (i := i) hi
    have hfst : p.1 = m := by
      rcases (hrow p mem_cons_self).1.eq_or_lt with heq | hlt
      · exact heq.symm
      · -- otherwise the last one is too large
        cases hlst : l with
        | nil =>
          have hp := hrow p mem_cons_self
          rw [hlst] at hl
          rw [length_nil] at hl
          omega
        | cons q l' =>
          have hq := ih (i := 0) (by rw [hlst]; exact Nat.succ_pos _)
          have hq' : q ∈ l := hlst ▸ mem_cons_self
          have hqlt := h.lt hq'
          simp only [hlst, getElem_cons_zero] at hq
          omega
    intro i hi
    cases i with
    | zero => exact hfst
    | succ i =>
      have hi' := ih (i := i) (Nat.lt_of_succ_lt_succ hi)
      rw [getElem_cons_succ, hi']
      omega

/-- The rows of a node are those of a vector, in order. -/
structure RowsOf (l : List (ℕ × Cell T)) : Prop where
  increasing : Increasing l
  lt : ∀ p ∈ l, p.1 < standardVectorSize

theorem mergeUpdateInfo_eq {info : UpdateInfo T} (h : RowsOf info.tuples) (result : ℕ → Cell T) (k : ℕ) :
    mergeUpdateInfo result info k = (lookup k info.tuples).getD (result k) := by
  rw [mergeUpdateInfo]
  by_cases hfull : info.tuples.length = standardVectorSize
  · rw [if_pos hfull]
    have hrow : ∀ {i : ℕ} (hi : i < info.tuples.length), info.tuples[i].1 = i := fun {i} hi => by
      have hfst := h.increasing.fst_eq hfull (m := 0)
        (fun p hp => ⟨Nat.zero_le _, by rw [Nat.zero_add]; exact h.lt p hp⟩) hi
      rwa [Nat.zero_add] at hfst
    rcases Nat.lt_or_ge k info.tuples.length with hk | hk
    · have hlook : lookup k info.tuples = some info.tuples[k].2 := h.increasing.lookup_eq_some_iff.2 (by
          have hmem := getElem_mem hk
          rwa [← Prod.mk.eta (p := info.tuples[k]), hrow hk] at hmem)
      rw [getElem?_eq_getElem hk, hlook]
      rfl
    · have hlook : lookup k info.tuples = none := by
        by_contra hne
        obtain ⟨p, hp, rfl⟩ := mem_map.1 (h.increasing.lookup_ne_none_iff.1 hne)
        exact absurd (h.lt p hp) (not_lt.2 (hfull ▸ hk))
      rw [getElem?_eq_none hk, hlook]
      rfl
  · rw [if_neg hfull, h.increasing.foldl_update_eq]

/-- Rows in the range get their values. -/
theorem mergeUpdateInfoRange_eq (h : Increasing l) {first last offset : ℕ} (hlst : first ≤ last)
    (result : ℕ → Cell T) (k : ℕ) : mergeUpdateInfoRange first last offset l result k =
      if offset ≤ k ∧ k < offset + (last - first) then (lookup (first + (k - offset)) l).getD (result k)
      else result k := by
  induction l generalizing result with
  | nil => exact (ite_self _).symm
  | cons p l ih =>
    rw [mergeUpdateInfoRange]
    by_cases hfst : p.1 < first
    · rw [if_pos hfst, ih h.tail, lookup_cons_of_gt (by omega)]
    · rw [if_neg hfst]
      by_cases hend : last ≤ p.1
      · rw [if_pos hend]
        by_cases hk : offset ≤ k ∧ k < offset + (last - first)
        · rw [if_pos hk, lookup_cons_of_lt (by omega)]
          rfl
        · rw [if_neg hk]
      · rw [if_neg hend, ih h.tail, h.lookup_cons]
        by_cases hk : k = offset + p.1 - first
        · have hrow : p.1 = first + (k - offset) := by omega
          have hin : offset ≤ k ∧ k < offset + (last - first) := by omega
          rw [if_pos hin, if_pos hin, if_pos hrow, lookup_of_lt fun q hq => hrow ▸ h.lt hq, hk, update_self]
          rfl
        · rw [update_of_ne hk]
          by_cases hin : offset ≤ k ∧ k < offset + (last - first)
          · rw [if_pos hin, if_pos hin, if_neg (by omega)]
          · rw [if_neg hin, if_neg hin]

/-- The rows of the root do not change when a node is rolled back. -/
theorem map_fst_rollbackLoop (rollback : List (ℕ × Cell T)) : ∀ {base : List (ℕ × Cell T)},
    Increasing rollback → Increasing base → (∀ p ∈ rollback, p.1 ∈ base.map Prod.fst) →
      (rollbackLoop base rollback).map Prod.fst = base.map Prod.fst ∧
        ∀ k, lookup k (rollbackLoop base rollback) = (lookup k rollback).or (lookup k base) := by
  induction rollback with
  | nil => exact fun _ _ _ => ⟨rfl, fun _ => rfl⟩
  | cons p rollback ih =>
    intro base hroll hbase hmem
    have hspl := takeWhile_append_dropWhile (p := fun q : ℕ × Cell T => decide (q.1 < p.1)) (l := base)
    rw [rollbackLoop]
    rcases hbase.dropWhile_cases p.1 with ⟨x, rest, hdrop, hlook⟩ | ⟨-, hlook⟩
    · rw [hdrop] at hspl ⊢
      have hrst : Increasing ((p.1, x) :: rest) := hdrop ▸ hbase.sublist (dropWhile_sublist _)
      have hset : Increasing ((p.1, p.2) :: rest) := pairwise_cons.2 (pairwise_cons.1 hrst)
      have hbef : ∀ k, p.1 ≤ k → lookup k (base.takeWhile (·.1 < p.1)) = none :=
        fun k hk => lookup_takeWhile_of_le base hk
      obtain ⟨hfst, hvals⟩ := ih hroll.tail hset fun q hq => by
        have hq' := hmem q (mem_cons_of_mem _ hq)
        rw [← hspl, map_append, mem_append] at hq'
        refine hq'.resolve_left fun hq' => ?_
        obtain ⟨r, hr, hrq⟩ := mem_map.1 hq'
        have hlt := mem_takeWhile_imp hr
        exact absurd (hroll.lt hq) (not_lt.2 (hrq ▸ (of_decide_eq_true hlt).le))
      have hkeys : ((base.takeWhile (·.1 < p.1)) ++ rollbackLoop ((p.1, p.2) :: rest) rollback).map Prod.fst =
          base.map Prod.fst := by
        conv_rhs => rw [← hspl]
        rw [map_append, map_append, hfst]
        rfl
      have hinc : Increasing ((base.takeWhile (·.1 < p.1)) ++ rollbackLoop ((p.1, p.2) :: rest) rollback) :=
        increasing_iff.2 (hkeys ▸ increasing_iff.1 hbase)
      refine ⟨hkeys, fun k => ?_⟩
      have hbase' := hbase.lookup_split p.1 k
      rw [hdrop] at hbase'
      rw [hinc.lookup_append, hvals, hbase', hroll.lookup_cons, hset.lookup_cons, hrst.lookup_cons]
      rcases lt_trichotomy k p.1 with hlt | rfl | hgt
      · rw [if_neg hlt.ne', if_neg hlt.ne', if_neg hlt.ne',
          lookup_of_lt fun q hq => hlt.trans (hroll.lt hq), none_or, none_or]
      · rw [if_pos rfl, if_pos rfl, hbef _ le_rfl, lookup_of_lt fun q hq => hroll.lt hq, none_or, none_or, some_or]
      · rw [if_neg hgt.ne, if_neg hgt.ne, if_neg hgt.ne, hbef _ hgt.le, none_or, none_or]
    · exact absurd hlook (hbase.lookup_ne_none_iff.2 (hmem p mem_cons_self))

/-- The comparison of sorted rows finds a row that they have in common, if there is one. -/
theorem conflictLoop_eq_true (n : ℕ) : ∀ {ids tuples : List ℕ}, ids.Pairwise (· < ·) →
    tuples.Pairwise (· < ·) → ids.length + tuples.length ≤ n →
      (conflictLoop n ids tuples = true ↔ ∃ id ∈ ids, id ∈ tuples) := by
  induction n with
  | zero =>
    intro ids tuples _ _ hn
    have hids : ids = [] := length_eq_zero_iff.1 (by omega)
    rw [hids]
    exact ⟨fun h => absurd h Bool.false_ne_true, fun ⟨_, h, _⟩ => absurd h not_mem_nil⟩
  | succ n ih =>
    intro ids tuples hids htuples hn
    cases ids with
    | nil => exact ⟨fun h => absurd h Bool.false_ne_true, fun ⟨_, h, _⟩ => absurd h not_mem_nil⟩
    | cons id ids =>
      cases tuples with
      | nil => exact ⟨fun h => absurd h Bool.false_ne_true, fun ⟨_, _, h⟩ => absurd h not_mem_nil⟩
      | cons tuple tuples =>
        obtain ⟨hid, hids'⟩ := pairwise_cons.1 hids
        obtain ⟨htuple, htuples'⟩ := pairwise_cons.1 htuples
        simp only [length_cons] at hn
        rw [conflictLoop]
        rcases lt_trichotomy id tuple with hlt | rfl | hgt
        · -- the id is not in the rest of the rows of the node
          rw [if_neg hlt.ne, if_pos hlt, ih hids' htuples (by simp only [length_cons]; omega)]
          refine ⟨fun ⟨i, hi, hi'⟩ => ⟨i, mem_cons_of_mem _ hi, hi'⟩, fun ⟨i, hi, hi'⟩ => ?_⟩
          refine ⟨i, (mem_cons.1 hi).resolve_left ?_, hi'⟩
          rintro rfl
          rcases mem_cons.1 hi' with rfl | hi'
          · exact hlt.ne rfl
          · exact absurd (htuple i hi') hlt.not_gt
        · rw [if_pos rfl]
          exact ⟨fun _ => ⟨id, mem_cons_self, mem_cons_self⟩, fun _ => rfl⟩
        · rw [if_neg hgt.ne', if_neg hgt.not_gt, ih hids htuples' (by simp only [length_cons]; omega)]
          refine ⟨fun ⟨i, hi, hi'⟩ => ⟨i, hi, mem_cons_of_mem _ hi'⟩, fun ⟨i, hi, hi'⟩ => ?_⟩
          refine ⟨i, hi, (mem_cons.1 hi').resolve_left ?_⟩
          rintro rfl
          rcases mem_cons.1 hi with rfl | hi
          · exact hgt.ne rfl
          · exact absurd (hid i hi) hgt.not_gt

/-- The new values are merged into the table of the root. -/
theorem mergeLoop_spec (n : ℕ) : ∀ {as bs : List (ℕ × Cell T)}, Increasing as → Increasing bs →
    as.length + bs.length ≤ n → Increasing (mergeLoop n as bs) ∧ (∀ p ∈ mergeLoop n as bs, p ∈ as ∨ p ∈ bs) ∧
        ∀ k, lookup k (mergeLoop n as bs) = (lookup k as).or (lookup k bs) := by
  have hnil : ∀ {n : ℕ} {bs : List (ℕ × Cell T)}, mergeLoop n [] bs = bs := by
    intro n bs
    cases n <;> rfl
  have hnil' : ∀ {n : ℕ} {as : List (ℕ × Cell T)}, mergeLoop n as [] = as := by
    intro n as
    cases n <;> cases as <;> simp [mergeLoop]
  induction n with
  | zero =>
    intro as bs has hbs hn
    obtain rfl : as = [] := length_eq_zero_iff.1 (by omega)
    exact ⟨hbs, fun _ => .inr, fun _ => (none_or).symm⟩
  | succ n ih =>
    intro as bs has hbs hn
    cases as with
    | nil =>
      exact ⟨hbs, fun _ => .inr, fun _ => (none_or).symm⟩
    | cons a as =>
      cases bs with
      | nil =>
        rw [hnil']
        exact ⟨has, fun _ => .inl, fun _ => (or_none).symm⟩
      | cons b bs =>
        simp only [length_cons] at hn
        -- a step of the merge: the first one of all entries, and the rest
        have hstep : ∀ {c : ℕ × Cell T} {as' bs' : List (ℕ × Cell T)}, Increasing as' → Increasing bs' →
            as'.length + bs'.length ≤ n → (∀ p ∈ as', c.1 < p.1) → (∀ p ∈ bs', c.1 < p.1) →
              Increasing (c :: mergeLoop n as' bs') ∧ (∀ p ∈ c :: mergeLoop n as' bs', p = c ∨ p ∈ as' ∨ p ∈ bs') ∧
                  ∀ k, lookup k (c :: mergeLoop n as' bs') =
                    if c.1 = k then some c.2 else (lookup k as').or (lookup k bs') := by
          intro c as' bs' has' hbs' hn' hlt hlt'
          obtain ⟨hinc, hmem, hlook⟩ := ih has' hbs' hn'
          have hcons : Increasing (c :: mergeLoop n as' bs') :=
            pairwise_cons.2 ⟨fun p hp => (hmem p hp).elim (hlt p) (hlt' p), hinc⟩
          refine ⟨hcons, fun p hp => (mem_cons.1 hp).imp_right (hmem p), fun k => ?_⟩
          rw [hcons.lookup_cons, hlook]
        rw [mergeLoop]
        rcases lt_trichotomy a.1 b.1 with hlt | heq | hgt
        · rw [if_neg hlt.ne, if_pos hlt]
          obtain ⟨hinc, hmem, hlook⟩ := hstep (c := a) has.tail hbs
            (by simp only [length_cons]; omega) (fun p => has.lt) fun p hp => by
              rcases mem_cons.1 hp with rfl | hp
              · exact hlt
              · exact hlt.trans (hbs.lt hp)
          refine ⟨hinc, fun p hp => ?_, fun k => ?_⟩
          · rcases hmem p hp with rfl | hp | hp
            · exact .inl mem_cons_self
            · exact .inl (mem_cons_of_mem _ hp)
            · exact .inr hp
          · rw [hlook, has.lookup_cons]
            by_cases hk : a.1 = k
            · rw [if_pos hk, if_pos hk, some_or]
            · rw [if_neg hk, if_neg hk]
        · rw [if_pos heq]
          obtain ⟨hinc, hmem, hlook⟩ := hstep (c := a) has.tail hbs.tail (by omega) (fun p => has.lt)
            fun p hp => heq ▸ hbs.lt hp
          refine ⟨hinc, fun p hp => ?_, fun k => ?_⟩
          · rcases hmem p hp with rfl | hp | hp
            · exact .inl mem_cons_self
            · exact .inl (mem_cons_of_mem _ hp)
            · exact .inr (mem_cons_of_mem _ hp)
          · rw [hlook, has.lookup_cons, hbs.lookup_cons]
            by_cases hk : a.1 = k
            · rw [if_pos hk, if_pos hk, some_or]
            · rw [if_neg hk, if_neg hk, if_neg (heq ▸ hk)]
        · rw [if_neg hgt.ne', if_neg hgt.not_gt]
          obtain ⟨hinc, hmem, hlook⟩ := hstep (c := b) has hbs.tail
            (by simp only [length_cons]; omega) (fun p hp => by
              rcases mem_cons.1 hp with rfl | hp
              · exact hgt
              · exact hgt.trans (has.lt hp)) fun p => hbs.lt
          refine ⟨hinc, fun p hp => ?_, fun k => ?_⟩
          · rcases hmem p hp with rfl | hp | hp
            · exact .inr mem_cons_self
            · exact .inl hp
            · exact .inr (mem_cons_of_mem _ hp)
          · rw [hlook, hbs.lookup_cons]
            by_cases hk : b.1 = k
            · rw [if_pos hk, if_pos hk, lookup_of_lt fun p hp => ?_, none_or]
              rcases mem_cons.1 hp with rfl | hp
              · exact hk ▸ hgt
              · exact hk ▸ hgt.trans (has.lt hp)
            · rw [if_neg hk, if_neg hk]

theorem oldValue_eq {root : List (ℕ × Cell T)} (hroot : Increasing root) (base : ℕ → Cell T) (id : ℕ) :
    mergeOld.oldValue base id (root.dropWhile (·.1 < id)) = (lookup id root).getD (base id) := by
  rcases hroot.dropWhile_cases id with ⟨x, rest, hdrop, hlook⟩ | ⟨hlt, hlook⟩
  · rw [hdrop, hlook, mergeOld.oldValue, if_pos rfl]
    rfl
  · rw [hlook]
    cases hdrop : root.dropWhile (·.1 < id) with
    | nil => rfl
    | cons q rest => exact if_neg (hlt q (hdrop ▸ mem_cons_self)).ne'

/-- The node of the transaction gets the values that the rows have so far, unless it has an older one. -/
theorem mergeOld_spec (base : ℕ → Cell T) (ids : List ℕ) : ∀ {update root : List (ℕ × Cell T)},
    ids.Pairwise (· < ·) → Increasing update → Increasing root → Increasing (mergeOld base ids update root) ∧
        (∀ p ∈ mergeOld base ids update root, p.1 ∈ ids ∨ p ∈ update) ∧
          ∀ k, lookup k (mergeOld base ids update root) =
            (lookup k update).or (if k ∈ ids then some ((lookup k root).getD (base k)) else none) := by
  induction ids with
  | nil =>
    intro update root _ hupd _
    refine ⟨hupd, fun _ => .inr, fun k => ?_⟩
    rw [if_neg not_mem_nil, or_none]
    rfl
  | cons id ids ih =>
    intro update root hids hupd hroot
    obtain ⟨hlt, hids'⟩ := pairwise_cons.1 hids
    have hbef : ∀ p ∈ update.takeWhile (·.1 < id), p.1 < id := fun p hp => by
      have hp := mem_takeWhile_imp hp
      exact of_decide_eq_true hp
    -- the entries before the id, an entry for the id, and what the rest of the loop makes of the others
    have hstep : ∀ (x : Cell T) (update' root' : List (ℕ × Cell T)), Increasing update' → Increasing root' →
        (∀ p ∈ update', id < p.1 ∧ p ∈ update) → (∀ k, id < k → lookup k root' = lookup k root) →
          (∀ k, lookup k (update.dropWhile (·.1 < id)) = if id = k then lookup id update else lookup k update') →
          (lookup id update = some x ∨ lookup id update = none ∧ x = (lookup id root).getD (base id)) →
            Increasing (update.takeWhile (·.1 < id) ++ (id, x) :: mergeOld base ids update' root') ∧
              (∀ p ∈ update.takeWhile (·.1 < id) ++ (id, x) :: mergeOld base ids update' root',
                p.1 ∈ id :: ids ∨ p ∈ update) ∧
              ∀ k, lookup k (update.takeWhile (·.1 < id) ++ (id, x) :: mergeOld base ids update' root') =
                (lookup k update).or
                  (if k ∈ id :: ids then some ((lookup k root).getD (base k)) else none) := by
      intro x update' root' hupd' hroot' hrst hroot'' hdrop hx
      obtain ⟨hinc, hmem, hlook⟩ := ih hids' hupd' hroot'
      have hbhd : ∀ p ∈ mergeOld base ids update' root', id < p.1 := fun p hp =>
        (hmem p hp).elim (hlt p.1) fun hp => (hrst p hp).1
      have hcons : Increasing ((id, x) :: mergeOld base ids update' root') := pairwise_cons.2 ⟨hbhd, hinc⟩
      have hall : Increasing (update.takeWhile (·.1 < id) ++ (id, x) :: mergeOld base ids update' root') := by
        refine (hupd.sublist (takeWhile_sublist _)).append hcons fun p hp q hq => ?_
        rcases mem_cons.1 hq with rfl | hq
        · exact hbef p hp
        · exact (hbef p hp).trans (hbhd q hq)
      refine ⟨hall, fun p hp => ?_, fun k => ?_⟩
      · rcases mem_append.1 hp with hp | hp
        · exact .inr ((takeWhile_sublist _).mem hp)
        · rcases mem_cons.1 hp with rfl | hp
          · exact .inl mem_cons_self
          · exact (hmem p hp).imp (mem_cons_of_mem _) fun hp => (hrst p hp).2
      · rw [hall.lookup_append, hcons.lookup_cons, hlook, hupd.lookup_split id k, hdrop]
        by_cases hk : id = k
        · rw [if_pos hk, if_pos hk, if_pos (hk ▸ mem_cons_self), ← hk,
            lookup_takeWhile_of_le update le_rfl, none_or, none_or]
          rcases hx with hx | ⟨hno, rfl⟩
          · rw [hx, some_or]
          · rw [hno, none_or]
        · rw [if_neg hk, if_neg hk, Option.or_assoc]
          by_cases hmem : k ∈ ids
          · rw [if_pos hmem, if_pos (mem_cons_of_mem _ hmem), hroot'' k (hlt k hmem)]
          · rw [if_neg hmem, if_neg fun h => (mem_cons.1 h).elim (fun h => hk h.symm) hmem]
    rw [mergeOld]
    have hdropinc : Increasing (update.dropWhile (·.1 < id)) := hupd.sublist (dropWhile_sublist _)
    have hrootinc : Increasing (root.dropWhile (·.1 < id)) := hroot.sublist (dropWhile_sublist _)
    rcases hupd.dropWhile_cases id with ⟨x, rest, hdrop, hlook⟩ | ⟨hgt, hlook⟩
    · -- the transaction has updated the row before
      rw [hdrop] at hdropinc ⊢
      dsimp only
      rw [if_pos rfl]
      refine hstep x rest root hdropinc.tail hroot (fun p hp => ⟨hdropinc.lt hp, ?_⟩) (fun _ _ => rfl)
        (fun k => ?_) (.inl hlook)
      · exact (dropWhile_sublist _).mem (hdrop ▸ mem_cons_of_mem _ hp)
      · rw [hdrop, hdropinc.lookup_cons, hlook]
    · have hmatch : (match update.dropWhile (fun p => decide (p.1 < id)) with
          | [] => (id, mergeOld.oldValue base id (root.dropWhile fun p => decide (p.1 < id))) ::
              mergeOld base ids [] (root.dropWhile fun p => decide (p.1 < id))
          | q :: rest => if q.1 = id then q :: mergeOld base ids rest root
            else (id, mergeOld.oldValue base id (root.dropWhile fun p => decide (p.1 < id))) ::
              mergeOld base ids (q :: rest) (root.dropWhile fun p => decide (p.1 < id))) =
          (id, mergeOld.oldValue base id (root.dropWhile fun p => decide (p.1 < id))) ::
            mergeOld base ids (update.dropWhile fun p => decide (p.1 < id))
              (root.dropWhile fun p => decide (p.1 < id)) := by
        cases hdrop : update.dropWhile (fun p => decide (p.1 < id)) with
        | nil => rfl
        | cons q rest => exact if_neg (hgt q (hdrop ▸ mem_cons_self)).ne'
      rw [hmatch, oldValue_eq hroot]
      refine hstep _ _ _ hdropinc hrootinc (fun p hp => ⟨hgt p hp, (dropWhile_sublist _).mem hp⟩)
        (fun k hk => hroot.lookup_dropWhile hk.le) (fun k => ?_) (.inr ⟨hlook, rfl⟩)
      by_cases hk : id = k
      · rw [if_pos hk, ← hk, hupd.lookup_dropWhile le_rfl]
      · rw [if_neg hk]

end Loops

end WfOpt

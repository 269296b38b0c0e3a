import WfOpt.Storage.RowVersionRuns
import WfOpt.Storage.UpdateErase
import WfOpt.Transaction.UndoBuffer

/-!
# Failed commits

A transaction has an entry in its undo buffer for the rows that it has deleted together, and for each of its update
nodes (`Tables.Inv`). A commit replaces the ids of the rows and the versions of the nodes. It fails if a table has
been dropped or altered in between; then the ids are put back, and the changes are rolled back.
-/

namespace WfOpt

open List Function

variable {T : Type*}

/-! ## Entries of undo buffers -/

/-- What a commit looks at of a `DataTable`: whether it is the current version, and what has been done with it
    (`TableModification`). -/
structure DataTable where
  isMainTable : Bool
  tableName : String
  tableModification : String

/-- The entries of undo buffers that change rows: deleted rows of a row group, or the update node of a column
    (`UndoFlags`). -/
inductive UndoEntry
  | deleteTuple (rowGroup : ℕ) (info : DeleteInfo)
  | updateTuple (column vector node : ℕ)

/-- The version information of row groups, and the updates of columns. -/
structure TableStorage (T : Type*) where
  versions : ℕ → RowVersionManager
  segments : ℕ → UpdateSegment T

namespace TableStorage

/-- The version of an update node is replaced. -/
def setVersion (s : TableStorage T) (i v p id : ℕ) : TableStorage T :=
  { s with segments := update s.segments i { s.segments i with
      chains := update (s.segments i).chains v (((s.segments i).chains v).setVersion p id) } }

/-- `RowVersionManager::CommitDelete` of a row group -/
def commitDelete (s : TableStorage T) (g id : ℕ) (info : DeleteInfo) : Option (TableStorage T) :=
  ((s.versions g).commitDelete id info).map fun m => { s with versions := update s.versions g m }

/-- `UpdateSegment::RollbackUpdate` of a column -/
def rollbackUpdate (s : TableStorage T) (i v p : ℕ) : TableStorage T :=
  { s with segments := update s.segments i { s.segments i with
      chains := update (s.segments i).chains v (((s.segments i).chains v).rollbackUpdate p) } }

/-- The error that is thrown if a table is not the current version any more. -/
def modificationError (table : DataTable) : Option String := if table.isMainTable then none
  else some ("Attempting to modify table " ++ table.tableName ++ " but another transaction has " ++
    table.tableModification ++ " this table")

/-- `CommitState::CommitEntry`. The table of an entry may be altered while the others are being committed. -/
def commitEntry (tables : UndoEntry → DataTable) (commitId : ℕ) (e : UndoEntry) (s : TableStorage T) :
    Option (TableStorage T × Option String) :=
  match modificationError (tables e) with
  | some message => some (s, some message)
  | none =>
    match e with
    | .deleteTuple g info => (s.commitDelete g commitId info).map fun s => (s, none)
    | .updateTuple i v p => some (s.setVersion i v p commitId, none)

/-- `CommitState::RevertCommit` -/
def revertEntry (transactionId : ℕ) : UndoEntry → TableStorage T → Option (TableStorage T)
  | .deleteTuple g info, s => s.commitDelete g transactionId info
  | .updateTuple i v p, s => some (s.setVersion i v p transactionId)

/-- `RollbackState::RollbackEntry` -/
def rollbackEntry : UndoEntry → TableStorage T → Option (TableStorage T)
  | .deleteTuple g info, s => s.commitDelete g notDeletedId info
  | .updateTuple i v p, s => some (s.rollbackUpdate i v p)

/-- What is done with the entries of the undo buffer of a transaction that is given a commit id. -/
def undoHandlers (tables : UndoEntry → DataTable) (t : TransactionData) (commitId : ℕ) :
    UndoHandlers UndoEntry (TableStorage T) :=
  ⟨commitEntry tables commitId, revertEntry t.transactionId, rollbackEntry⟩

end TableStorage

/-! ## Changes of a transaction -/

/-- The columns and row groups of tables, and the entries of the undo buffer of one transaction. -/
structure Tables (T : Type*) where
  transactions : TransactionManager
  columns : ℕ → UpdateState T
  rowGroups : ℕ → RowGroupState
  entries : List UndoEntry

namespace Tables

/-- What is stored. -/
def storage (s : Tables T) : TableStorage T := ⟨fun g => (s.rowGroups g).versions, fun i => (s.columns i).segment⟩

/-- The transactions of the columns and row groups are the same. -/
structure Agree (s : Tables T) : Prop where
  columns : ∀ i, (s.columns i).transactions = s.transactions
  rowGroups : ∀ g, (s.rowGroups g).transactions = s.transactions

/-- An active transaction, which is not committing, has not changed anything so far. -/
structure Begin [BEq T] (sort : IndexSort) (base : ℕ → ℕ → ℕ → Cell T) (t : TransactionData) (s : Tables T) :
    Prop where
  agree : s.Agree
  columns : ∀ i, Reachable UpdateState.Init (UpdateState.Next sort (base i)) (s.columns i)
  rowGroups : ∀ g, Reachable RowGroupState.Init RowGroupState.Next (s.rowGroups g)
  active : t ∈ s.transactions.active
  free : ∀ c, s.transactions.committing ≠ some (t, c)
  nodes : ∀ i, ∀ q ∈ (s.columns i).undo, (s.columns i).version q ≠ t.transactionId
  deleted : ∀ g r, (s.rowGroups g).deleteId r ≠ t.transactionId
  entries : s.entries = []

/-- A transaction updates rows of a column, or deletes rows of a row group, and gets an entry of its undo buffer. -/
inductive Change [BEq T] (sort : IndexSort) (base : ℕ → ℕ → ℕ → Cell T) (t : TransactionData) :
    Tables T → Tables T → Prop
  | update (s : Tables T) (i : ℕ) (u : UpdateVector T) (v : ℕ) (r : UpdateResult T)
    (hu : u.InVector (s.columns i).segment.start v)
    (h : (s.columns i).segment.update sort (base i) t u = some r) :
    Change sort base t s { s with
      columns := update s.columns i { s.columns i with
        segment := r.segment
        undo := r.created.toList ++ (s.columns i).undo
        written := match r.error with
          | none => update (s.columns i).written t.transactionId fun k =>
              ((s.columns i).segment.recorded sort (base i) u k).or ((s.columns i).written t.transactionId k)
          | some _ => (s.columns i).written }
      entries := s.entries ++ r.created.toList.map fun q => .updateTuple i q.1 q.2 }
  | delete (s : Tables T) (g v : ℕ) (rows : ℕ → ℕ) (n : ℕ) (hrows : (s.rowGroups g).Rows v rows n)
    (hsees : ∀ i < n, t.sees ((s.rowGroups g).insertId (v * standardVectorSize + rows i))
      ((s.rowGroups g).deleteId (v * standardVectorSize + rows i)) = true) :
    Change sort base t s { s with
      rowGroups := update s.rowGroups g { s.rowGroups g with
        versions := ((s.rowGroups g).versions.deleteRows v t.transactionId rows n).1
        deleteId := match ((s.rowGroups g).versions.deleteRows v t.transactionId rows n).2 with
          | none => (s.rowGroups g).deleteId
          | some (rows', n') =>
            RowGroupState.markRows (s.rowGroups g).deleteId v rows' n' t.transactionId }
      entries := s.entries ++ match ((s.rowGroups g).versions.deleteRows v t.transactionId rows n).2 with
        | none => []
        | some (rows', n') => [.deleteTuple g (pushDelete v rows' n')] }

/-- Others do not touch the update nodes of the transaction and the rows it has deleted. -/
structure Others [BEq T] (sort : IndexSort) (base : ℕ → ℕ → ℕ → Cell T) (t : TransactionData) (s s' : Tables T) :
    Prop where
  agree : s'.Agree
  columns : ∀ i, s'.columns i = s.columns i ∨ UpdateState.Next sort (base i) (s.columns i) (s'.columns i)
  rowGroups : ∀ g, s'.rowGroups g = s.rowGroups g ∨ RowGroupState.Next (s.rowGroups g) (s'.rowGroups g)
  active : t ∈ s'.transactions.active
  free : ∀ c, s'.transactions.committing ≠ some (t, c)
  nodes : ∀ i q, (q ∈ (s'.columns i).undo ∧ (s'.columns i).version q = t.transactionId) ↔
    (q ∈ (s.columns i).undo ∧ (s.columns i).version q = t.transactionId)
  deleted : ∀ g r, (s'.rowGroups g).deleteId r = t.transactionId ↔ (s.rowGroups g).deleteId r = t.transactionId
  entries : s'.entries = s.entries

/-- The steps until a transaction commits. -/
inductive Next [BEq T] (sort : IndexSort) (base : ℕ → ℕ → ℕ → Cell T) (t : TransactionData) :
    Tables T → Tables T → Prop
  | own (s s' : Tables T) (h : Change sort base t s s') : Next sort base t s s'
  | others (s s' : Tables T) (h : Others sort base t s s') : Next sort base t s s'

end Tables

/-! ## What is in the undo buffer -/

/-- The update node of an entry. -/
def UndoEntry.nodes : UndoEntry → List (ℕ × ℕ × ℕ)
  | .deleteTuple .. => []
  | .updateTuple i v p => [(i, v, p)]

/-- The deleted rows of an entry, in row groups. -/
def UndoEntry.rows : UndoEntry → List (ℕ × ℕ)
  | .deleteTuple g info =>
    (range info.count).map fun i => (g, info.vectorIdx * standardVectorSize + info.rows i)
  | .updateTuple .. => []

/-- Entries do not have the same update nodes or rows. -/
def UndoEntry.Disjoint (e e' : UndoEntry) : Prop := e.nodes.Disjoint e'.nodes ∧ e.rows.Disjoint e'.rows

theorem UndoEntry.Disjoint.symm {e e' : UndoEntry} (h : e.Disjoint e') : e'.Disjoint e := ⟨h.1.symm, h.2.symm⟩

theorem RowGroupState.mem_rows_iff {ids : ℕ → ℕ} {v n id r : ℕ} {rows : ℕ → ℕ} (g : ℕ) : markRows ids v rows n id r =
      if (g, r) ∈ (UndoEntry.deleteTuple g (pushDelete v rows n)).rows then id else ids r := by
  refine if_congr ?_ rfl rfl
  change r ∈ _ ↔ (g, r) ∈ (range n).map fun i => (g, v * standardVectorSize + rows i)
  rw [mem_map, mem_map]
  exact exists_congr fun i => and_congr_right fun _ => (Prod.mk.injEq ..).symm ▸ (and_iff_right rfl).symm

/-- What a deletion returns is rows that have not been deleted before. -/
theorem RowGroupState.Inv.deleteRows_cases {s : RowGroupState} (h : s.Inv) {t : TransactionData} {v n : ℕ}
    {rows : ℕ → ℕ} (ht : t ∈ s.transactions.active) (hrows : s.Rows v rows n)
    (hsees : ∀ i < n, t.sees (s.insertId (v * standardVectorSize + rows i))
      (s.deleteId (v * standardVectorSize + rows i)) = true) :
    (s.versions.deleteRows v t.transactionId rows n).2 = none ∨
      ∃ rows' n', (s.versions.deleteRows v t.transactionId rows n).2 = some (rows', n') ∧ s.Rows v rows' n' ∧
        ∀ i < n', s.deleteId (v * standardVectorSize + rows' i) = notDeletedId := by
  obtain ⟨hconst, hfr⟩ := h.fresh_of_sees ht hrows hsees
  rw [RowVersionManager.deleteRows]
  rcases (s.versions.getVectorInfo v).delete_spec
    (h.transactions.transactionId_lt_notDeletedId ht).ne hfr with ⟨-, heq⟩ | ⟨hund, rows', n', heq, hmem⟩
  · rw [heq]
    exact .inl rfl
  · rw [heq]
    refine .inr ⟨rows', n', rfl, ?_⟩
    -- each row that is returned is one of those that were given
    have hrow : ∀ i < n', ∃ k < n, rows k = rows' i := fun i hi => by
      obtain ⟨k, hk, hki⟩ := ChunkVectorInfo.mem_map_range.1
        ((hmem (rows' i)).1 (ChunkVectorInfo.mem_map_range.2 ⟨i, hi, rfl⟩))
      exact ⟨k, hk, hki⟩
    refine ⟨⟨?_, fun i hi => ?_, fun i hi => ?_⟩, fun i hi => ?_⟩
    · obtain ⟨i, hi, -⟩ := ChunkVectorInfo.mem_map_range.1
        ((hmem (rows 0)).2 (ChunkVectorInfo.mem_map_range.2 ⟨0, hrows.pos, rfl⟩))
      exact Nat.zero_lt_of_lt hi
    · obtain ⟨k, hk, hki⟩ := hrow i hi
      exact hki ▸ hrows.row_lt k hk
    · obtain ⟨k, hk, hki⟩ := hrow i hi
      exact hki ▸ hrows.lt_count k hk
    · obtain ⟨k, hk, hki⟩ := hrow i hi
      rw [← hki, ← h.initializedDeleted_eq hconst (hrows.row_lt k hk)]
      exact hund k hk

/-- Rows that have been deleted stay. -/
theorem RowGroupState.Next.lt_count {s s' : RowGroupState} (h : Next s s') {r : ℕ} (hr : r < s.count)
    (hdeld : s.deleteId r ≠ notDeletedId) : r < s'.count := by
  cases h with
  | append t n m => exact hr.trans_le (Nat.le_add_right _ _)
  | revertAppend t b happ hund =>
    by_contra hb
    exact hdeld (hund r (not_lt.1 hb) hr)
  | _ => exact hr

namespace Tables

/-- The entries are the update nodes of the transaction, and the rows that it has deleted. -/
structure Inv (base : ℕ → ℕ → ℕ → Cell T) (t : TransactionData) (s : Tables T) : Prop where
  agree : s.Agree
  active : t ∈ s.transactions.active
  free : ∀ c, s.transactions.committing ≠ some (t, c)
  columns : ∀ i, (s.columns i).Inv (base i)
  rowGroups : ∀ g, (s.rowGroups g).Inv
  nodes : ∀ i q, (q ∈ (s.columns i).undo ∧ (s.columns i).version q = t.transactionId) ↔
    (i, q) ∈ s.entries.flatMap UndoEntry.nodes
  disjoint : s.entries.Pairwise UndoEntry.Disjoint
  deletes : ∀ g info, .deleteTuple g info ∈ s.entries → ∃ v rows n, info = pushDelete v rows n ∧
    (s.rowGroups g).Rows v rows n
  deleted : ∀ g r, (s.rowGroups g).deleteId r = t.transactionId ↔ (g, r) ∈ s.entries.flatMap UndoEntry.rows

variable [BEq T] {sort : IndexSort} {base : ℕ → ℕ → ℕ → Cell T} {t : TransactionData} {s s' : Tables T}

theorem Begin.inv (h : s.Begin sort base t) : s.Inv base t where
  agree := h.agree
  active := h.active
  free := h.free
  columns i := UpdateState.inv_of_reachable (h.columns i)
  rowGroups g := RowGroupState.inv_of_reachable (h.rowGroups g)
  nodes i q := by
    rw [h.entries]
    exact ⟨fun hq => absurd hq.2 (h.nodes i q hq.1), fun hq => absurd hq not_mem_nil⟩
  disjoint := by
    rw [h.entries]
    exact .nil
  deletes g info hmem := by
    rw [h.entries] at hmem
    exact absurd hmem not_mem_nil
  deleted g r := by
    rw [h.entries]
    exact ⟨fun hr => absurd hr (h.deleted g r), fun hr => absurd hr not_mem_nil⟩

namespace Inv

theorem update (h : s.Inv base t) {i v : ℕ} {u : UpdateVector T} {r : UpdateResult T}
    (hu : u.InVector (s.columns i).segment.start v)
    (hr : (s.columns i).segment.update sort (base i) t u = some r) :
    Inv base t { s with
      columns := update s.columns i { s.columns i with
        segment := r.segment
        undo := r.created.toList ++ (s.columns i).undo
        written := match r.error with
          | none => update (s.columns i).written t.transactionId fun k =>
              ((s.columns i).segment.recorded sort (base i) u k).or ((s.columns i).written t.transactionId k)
          | some _ => (s.columns i).written }
      entries := s.entries ++ r.created.toList.map fun q => .updateTuple i q.1 q.2 } := by
  have ht : t ∈ (s.columns i).transactions.active := (h.agree.columns i).symm ▸ h.active
  have hcom : ∀ c, (s.columns i).transactions.committing ≠ some (t, c) := (h.agree.columns i).symm ▸ h.free
  have hinv := (h.columns i).update sort ht hcom hu hr
  obtain ⟨hfr, hnds, -⟩ := (h.columns i).update_without sort ht hcom hu hr
  have hflat : ∀ created : List (ℕ × ℕ), (created.map fun q => UndoEntry.updateTuple i q.1 q.2).flatMap
      UndoEntry.nodes = created.map fun q => (i, q) := by
    intro created
    induction created with
    | nil => rfl
    | cons q created ih =>
      rw [map_cons, flatMap_cons, ih]
      rfl
  have hflat' : ∀ created : List (ℕ × ℕ), (created.map fun q => UndoEntry.updateTuple i q.1 q.2).flatMap
      UndoEntry.rows = [] := by
    intro created
    induction created with
    | nil => rfl
    | cons q created ih =>
      rw [map_cons, flatMap_cons, ih]
      rfl
  refine
    { agree := ⟨fun j => ?_, h.agree.rowGroups⟩
      active := h.active
      free := h.free
      columns := fun j => ?_
      rowGroups := h.rowGroups
      nodes := fun j q => ?_
      disjoint := ?_
      deletes := fun g info hmem => ?_
      deleted := fun g r => ?_ }
  · dsimp only
    by_cases hj : j = i
    · rw [hj, update_self]
      exact h.agree.columns i
    · rw [update_of_ne hj]
      exact h.agree.columns j
  · dsimp only
    by_cases hj : j = i
    · rw [hj, update_self]
      exact hinv
    · rw [update_of_ne hj]
      exact h.columns j
  · dsimp only
    rw [flatMap_append, hflat, mem_append, ← h.nodes]
    by_cases hj : j = i
    · subst hj
      rw [update_self]
      refine (hnds q).trans (or_comm.trans (or_congr_right ?_))
      rw [mem_map]
      exact ⟨fun hq => ⟨q, hq, rfl⟩, fun ⟨q', hq', heq⟩ => (Prod.mk.inj heq).2 ▸ hq'⟩
    · rw [update_of_ne hj]
      refine (or_iff_left fun hq => ?_).symm
      obtain ⟨q', -, heq⟩ := mem_map.1 hq
      exact hj (Prod.mk.inj heq).1.symm
  · rw [pairwise_append]
    refine ⟨h.disjoint, ?_, fun e he e' he' => ?_⟩
    · cases r.created with
      | none => exact .nil
      | some q => exact pairwise_singleton _ _
    · obtain ⟨q, hq, rfl⟩ := mem_map.1 he'
      refine ⟨fun k hk hk' => ?_, fun k _ hk => absurd hk not_mem_nil⟩
      obtain rfl := mem_singleton.1 hk'
      exact hfr q hq ((h.nodes i q).2 (mem_flatMap.2 ⟨e, he, hk⟩)).1
  · rcases mem_append.1 hmem with hmem | hmem
    · exact h.deletes g info hmem
    · obtain ⟨q, -, hq⟩ := mem_map.1 hmem
      exact nomatch hq
  · rw [flatMap_append, hflat', append_nil]
    exact h.deleted g r

variable (h : s.Inv base t)

include h

omit [BEq T] in
theorem delete {g v n : ℕ} {rows : ℕ → ℕ} (hrows : (s.rowGroups g).Rows v rows n)
    (hsees : ∀ i < n, t.sees ((s.rowGroups g).insertId (v * standardVectorSize + rows i))
      ((s.rowGroups g).deleteId (v * standardVectorSize + rows i)) = true) :
    Inv base t { s with
      rowGroups := Function.update s.rowGroups g { s.rowGroups g with
        versions := ((s.rowGroups g).versions.deleteRows v t.transactionId rows n).1
        deleteId := match ((s.rowGroups g).versions.deleteRows v t.transactionId rows n).2 with
          | none => (s.rowGroups g).deleteId
          | some (rows', n') =>
            RowGroupState.markRows (s.rowGroups g).deleteId v rows' n' t.transactionId }
      entries := s.entries ++ match ((s.rowGroups g).versions.deleteRows v t.transactionId rows n).2 with
        | none => []
        | some (rows', n') => [.deleteTuple g (pushDelete v rows' n')] } := by
  have ht : t ∈ (s.rowGroups g).transactions.active := (h.agree.rowGroups g).symm ▸ h.active
  have hinv := (h.rowGroups g).delete ht hrows hsees
  -- the parts that do not depend on the entry
  have hagr : ∀ {r : RowGroupState}, r.transactions = (s.rowGroups g).transactions → ∀ g',
      (Function.update s.rowGroups g r g').transactions = s.transactions := by
    intro r hr g'
    by_cases hg : g' = g
    · rw [hg, Function.update_self, hr]
      exact h.agree.rowGroups g
    · rw [Function.update_of_ne hg]
      exact h.agree.rowGroups g'
  have hrg : ∀ {r : RowGroupState}, r.Inv → ∀ g', (Function.update s.rowGroups g r g').Inv := by
    intro r hr g'
    by_cases hg : g' = g
    · rw [hg, Function.update_self]
      exact hr
    · rw [Function.update_of_ne hg]
      exact h.rowGroups g'
  have hRows : ∀ {r : RowGroupState} {g' v n} {rows : ℕ → ℕ}, r.count = (s.rowGroups g).count →
      (s.rowGroups g').Rows v rows n → (Function.update s.rowGroups g r g').Rows v rows n := by
    intro r g' v n rows hr hrows
    refine ⟨hrows.pos, hrows.row_lt, ?_⟩
    by_cases hg : g' = g
    · rw [hg, Function.update_self, hr]
      exact hg ▸ hrows.lt_count
    · rw [Function.update_of_ne hg]
      exact hrows.lt_count
  rcases (h.rowGroups g).deleteRows_cases ht hrows hsees with hno | ⟨rows', n', hsome, hrs', hund⟩
  · rw [hno] at hinv ⊢
    dsimp only
    rw [append_nil]
    exact
      { agree := ⟨h.agree.columns, hagr rfl⟩
        active := h.active
        free := h.free
        columns := h.columns
        rowGroups := hrg hinv
        nodes := h.nodes
        disjoint := h.disjoint
        deletes := fun g' info hmem => by
          obtain ⟨v, rows, n, hinf, hrows⟩ := h.deletes g' info hmem
          exact ⟨v, rows, n, hinf, hRows rfl hrows⟩
        deleted := fun g' r => by
          dsimp only
          by_cases hg : g' = g
          · rw [hg, Function.update_self]
            exact h.deleted g r
          · rw [Function.update_of_ne hg]
            exact h.deleted g' r }
  · rw [hsome] at hinv ⊢
    dsimp only
    have hnds : (s.entries ++ [UndoEntry.deleteTuple g (pushDelete v rows' n')]).flatMap UndoEntry.nodes =
        s.entries.flatMap UndoEntry.nodes := by
      rw [flatMap_append]
      exact append_nil _
    exact
      { agree := ⟨h.agree.columns, hagr rfl⟩
        active := h.active
        free := h.free
        columns := h.columns
        rowGroups := hrg hinv
        nodes := fun i q => by
          rw [hnds]
          exact h.nodes i q
        disjoint := by
          refine pairwise_append.2 ⟨h.disjoint, pairwise_singleton _ _, fun e he e' he' => ?_⟩
          obtain rfl := mem_singleton.1 he'
          refine ⟨fun k _ hk => absurd hk not_mem_nil, fun k hk hk' => ?_⟩
          -- the rows had not been deleted before
          obtain ⟨j, hj, rfl⟩ := mem_map.1 hk'
          have hid := (h.deleted g _).2 (mem_flatMap.2 ⟨e, he, hk⟩)
          refine absurd (hid.symm.trans (hund j (mem_range.1 hj))) ?_
          exact ((h.rowGroups g).transactions.transactionId_lt_notDeletedId ht).ne
        deletes := fun g' info hmem => by
          rcases mem_append.1 hmem with hmem | hmem
          · obtain ⟨v, rows, n, hinf, hrows⟩ := h.deletes g' info hmem
            exact ⟨v, rows, n, hinf, hRows rfl hrows⟩
          · obtain ⟨rfl, rfl⟩ := UndoEntry.deleteTuple.inj (mem_singleton.1 hmem)
            exact ⟨v, rows', n', rfl, hRows rfl hrs'⟩
        deleted := fun g' r => by
          dsimp only
          rw [flatMap_append, mem_append, flatMap_singleton]
          by_cases hg : g' = g
          · subst hg
            rw [Function.update_self]
            dsimp only
            rw [RowGroupState.mem_rows_iff g']
            by_cases hmem : (g', r) ∈ (UndoEntry.deleteTuple g' (pushDelete v rows' n')).rows
            · rw [if_pos hmem]
              exact ⟨fun _ => .inr hmem, fun _ => rfl⟩
            · rw [if_neg hmem, or_iff_left hmem]
              exact h.deleted g' r
          · rw [Function.update_of_ne hg]
            refine (h.deleted g' r).trans (or_iff_left fun hmem => ?_).symm
            obtain ⟨i, -, heq⟩ := mem_map.1 hmem
            exact hg (Prod.mk.inj heq).1.symm }

theorem change (hchg : Change sort base t s s') : s'.Inv base t := by
  cases hchg with
  | update i u v r hu hr => exact h.update hu hr
  | delete g v rows n hrows hsees => exact h.delete hrows hsees

theorem others (hoths : Others sort base t s s') : s'.Inv base t where
  agree := hoths.agree
  active := hoths.active
  free := hoths.free
  columns i := by
    rcases hoths.columns i with heq | hnx
    · exact heq.symm ▸ h.columns i
    · exact (h.columns i).next hnx
  rowGroups g := by
    rcases hoths.rowGroups g with heq | hnx
    · exact heq.symm ▸ h.rowGroups g
    · exact (h.rowGroups g).next hnx
  nodes i q := by
    rw [hoths.nodes, hoths.entries]
    exact h.nodes i q
  disjoint := hoths.entries.symm ▸ h.disjoint
  deletes g info hmem := by
    rw [hoths.entries] at hmem
    obtain ⟨v, rows, n, rfl, hrows⟩ := h.deletes g info hmem
    refine ⟨v, rows, n, rfl, hrows.pos, hrows.row_lt, fun i hi => ?_⟩
    rcases hoths.rowGroups g with heq | hnx
    · exact heq.symm ▸ hrows.lt_count i hi
    · refine hnx.lt_count (hrows.lt_count i hi) ?_
      have hid := (h.deleted g (v * standardVectorSize + rows i)).2
        (mem_flatMap.2 ⟨_, hmem, mem_map.2 ⟨i, mem_range.2 hi, rfl⟩⟩)
      rw [hid]
      have ht := h.active
      rw [← h.agree.rowGroups g] at ht
      exact ((h.rowGroups g).transactions.transactionId_lt_notDeletedId ht).ne
  deleted g r := by
    rw [hoths.deleted, hoths.entries]
    exact h.deleted g r

theorem next (hnx : Next sort base t s s') : s'.Inv base t := by
  cases hnx with
  | own hchg => exact h.change hchg
  | others hoths => exact h.others hoths

end Inv

end Tables

end WfOpt

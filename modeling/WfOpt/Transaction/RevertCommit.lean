import WfOpt.Storage.UpdateSnapshots
import WfOpt.Transaction.FailedCommit

/-!
# Reverts and rollbacks

A commit that fails gives ids to some of the nodes and deleted rows of the transaction (`Tables.Marked`), and takes
this back. Then the rows and nodes are rolled back, one entry after another (`Tables.RolledBack`).

In all of these states the tables have their invariants, and other transactions do not read what the transaction has
changed (`Tables.Sound.unseen`). At the end all is as without the changes (`Tables.commitTransaction_undone`), up to
the roots of vectors that had no updates before (`Tables.rollbackUpdate_root`).
-/

namespace WfOpt

open List Function Option

variable {T : Type*}

/-- Others do not see what has been deleted with an id of the transaction. -/
theorem TransactionManager.Past.useDeletedVersion {κ α : Type*} {m : TransactionManager}
    {history : List (Commit κ α)} {t u : TransactionData} {id : ℕ} (h : m.Past history) (ht : t ∈ m.active)
    (hu : u ∈ m.active) (hne : u ≠ t) (hown : m.Owns t id) : u.useDeletedVersion id = true := by
  have hlt : ¬id < u.startTime := (h.startTime_lt_of_owns ht hu hown).not_gt
  have hid : id ≠ u.transactionId := fun hid => hne (h.owns_inj hu ht (.inl hid) hown)
  rw [TransactionData.useDeletedVersion, TransactionData.useInsertedVersion, decide_eq_false hlt,
    decide_eq_false hid]
  rfl

/-- The versions of all nodes are replaced. -/
def UpdateSegment.withVersions (s : UpdateSegment T) (f : ℕ → ℕ → ℕ) : UpdateSegment T := { s with chains := fun v =>
      { s.chains v with info := fun p => { (s.chains v).info p with versionNumber := f v p } } }

theorem UpdateSegment.withVersions_setVersion (s : UpdateSegment T) (f : ℕ → ℕ → ℕ) (v p id : ℕ) :
    ({ s.withVersions f with
        chains := Function.update (s.withVersions f).chains v (((s.withVersions f).chains v).setVersion p id) } :
      UpdateSegment T) = s.withVersions fun w q => if (w, q) = (v, p) then id else f w q := by
  refine congrArg (UpdateSegment.mk s.start) (funext fun w => ?_)
  by_cases hw : w = v
  · subst hw
    rw [update_self, UpdateChain.setVersion]
    refine congrArg (fun info => ({ s.chains w with info } : UpdateChain T)) (funext fun q => ?_)
    by_cases hq : q = p
    · rw [hq, update_self]
      dsimp only
      rw [if_pos rfl]
      rfl
    · rw [update_of_ne hq]
      dsimp only
      rw [if_neg fun heq => hq (Prod.mk.inj heq).2]
      rfl
  · rw [update_of_ne hw]
    refine congrArg (fun info => ({ s.chains w with info } : UpdateChain T)) (funext fun q => ?_)
    dsimp only
    rw [if_neg fun heq => hw (Prod.mk.inj heq).1]

/-- Rows that have been deleted, but not on disk, get another id. -/
theorem RowGroupState.Inv.commitDelete_spec {s : RowGroupState} (h : s.Inv) {v n : ℕ} {rows : ℕ → ℕ}
    (hrs : s.Rows v rows n) (hz : s.deleteId (v * standardVectorSize + rows 0) ≠ 0)
    (hdeld : s.deleteId (v * standardVectorSize + rows 0) ≠ notDeletedId) (id : ℕ) :
    ∃ m, s.versions.commitDelete id (pushDelete v rows n) = some m ∧
      Inv { s with versions := m, deleteId := markRows s.deleteId v rows n id } :=
  ⟨_, h.commitDelete_of_ne hrs hz hdeld id, h.mark (h.constant_of_ne (hrs.row_lt 0 hrs.pos) hz) hrs⟩

theorem TransactionManager.MayCommit.owns_ne {m : TransactionManager} {t : TransactionData} {id : ℕ}
    (hcom : m.MayCommit t) (hvld : (m.startCommit t).Valid) (hown : (m.startCommit t).Owns t id) :
    id ≠ 0 ∧ id ≠ notDeletedId := by
  have ht : t ∈ (m.startCommit t).active := hcom.active
  rcases hown with rfl | hid
  · exact ⟨(Nat.zero_lt_of_lt (hvld.startTime_lt_transactionId ht ht)).ne',
      (hvld.transactionId_lt_notDeletedId ht).ne⟩
  · obtain rfl : m.currentStartTimestamp = id := (Prod.mk.inj (some.inj hid)).2
    have htime : 2 ≤ m.currentStartTimestamp + 1 := hvld.timestamp
    have hlt : m.currentStartTimestamp < notDeletedId := hcom.timestamp.trans (by decide)
    exact ⟨by omega, hlt.ne⟩

namespace TableStorage

/-- The version of an update node -/
def version (x : TableStorage T) (k : ℕ × ℕ × ℕ) : ℕ := ((x.segments k.1).chains k.2.1).version k.2.2

/-- An entry of a table that is still current gets the commit id. -/
theorem commitEntry_eq (tables : UndoEntry → DataTable) (commitId : ℕ) (e : UndoEntry) (x : TableStorage T) :
    commitEntry tables commitId e x = match modificationError (tables e) with
      | some message => some (x, some message)
      | none => (revertEntry commitId e x).map fun x => (x, none) := by
  cases e <;> rfl

theorem setVersion_version (x : TableStorage T) (i v p id : ℕ) (k : ℕ × ℕ × ℕ) :
    (x.setVersion i v p id).version k = if k = (i, v, p) then id else x.version k := by
  obtain ⟨j, w, q⟩ := k
  rw [setVersion, version]
  dsimp only
  by_cases hj : j = i
  · subst hj
    rw [update_self]
    dsimp only
    by_cases hw : w = v
    · subst hw
      rw [update_self, UpdateChain.version, ((x.segments j).chains w).setVersion_info p id q |>.1]
      by_cases hq : q = p
      · rw [hq, update_self, if_pos rfl]
      · rw [update_of_ne hq, if_neg fun heq => hq (Prod.mk.inj (Prod.mk.inj heq).2).2]
        rfl
    · rw [update_of_ne hw, if_neg fun heq => hw (Prod.mk.inj (Prod.mk.inj heq).2).1]
      rfl
  · rw [update_of_ne hj, if_neg fun heq => hj (Prod.mk.inj heq).1]
    rfl

/-- The delete id of a row -/
def deleteId (x : TableStorage T) (k : ℕ × ℕ) : ℕ := (x.versions k.1).deleteId k.2

end TableStorage

namespace Tables

/-! ## Reads -/

/-- The delete ids of rows without the deletions of a transaction. -/
def deleteIdWithout (s : Tables T) (t : TransactionData) (k : ℕ × ℕ) : ℕ :=
  if s.storage.deleteId k = t.transactionId then notDeletedId else s.storage.deleteId k

/-- The other transactions read what they have written or what was committed before they started, and nothing is
    deleted for them. -/
structure Unseen (base : ℕ → ℕ → ℕ → Cell T) (t : TransactionData) (s : Tables T) (x : TableStorage T) : Prop where
  updates : ∀ u ∈ s.transactions.active, u ≠ t → ∀ i v, ∃ result,
    ((x.segments i).chains v).fetchUpdates u (base i v) = some result ∧
      ∀ row, ((x.segments i).chains v).fetchRow u row (base i v row) = some (result row) ∧
        result row = ((s.columns i).written u.transactionId (v, row)).getD
          (valueAt (fun k => base i k.1 k.2) (s.columns i).history u.startTime (v, row))
  selected : ∀ u ∈ s.transactions.active, u ≠ t → ∀ g v n, n ≤ standardVectorSize →
    v * standardVectorSize + n ≤ (s.rowGroups g).count →
      ((x.versions g).getSelVector u v n).selected n = (range n).filter fun j =>
        u.sees ((s.rowGroups g).insertId (v * standardVectorSize + j))
          (s.deleteIdWithout t (g, v * standardVectorSize + j))
  fetched : ∀ u ∈ s.transactions.active, u ≠ t → ∀ g, ∀ r < (s.rowGroups g).count,
    (x.versions g).fetch u r = u.sees ((s.rowGroups g).insertId r) (s.deleteIdWithout t (g, r))

/-- The columns and row groups have their invariants, and what the others have written and deleted is as it
    was. -/
structure Sound (base : ℕ → ℕ → ℕ → Cell T) (t : TransactionData) (s : Tables T) (x : TableStorage T) : Prop where
  columns : ∀ i, ∃ undo written, UpdateState.Inv (base i)
      ⟨s.transactions.startCommit t, x.segments i, undo, written, (s.columns i).history⟩ ∧
    ∀ u ∈ s.transactions.active, u ≠ t → written u.transactionId = (s.columns i).written u.transactionId
  rowGroups : ∀ g, RowGroupState.Inv { s.rowGroups g with
    transactions := s.transactions.startCommit t
    versions := x.versions g
    deleteId := (x.versions g).deleteId }
  deleted : ∀ k, x.deleteId k = s.deleteIdWithout t k ∨
    s.storage.deleteId k = t.transactionId ∧ (s.transactions.startCommit t).Owns t (x.deleteId k)

variable {base : ℕ → ℕ → ℕ → Cell T} {t : TransactionData} {s : Tables T} {x : TableStorage T}

theorem Sound.unseen (h : s.Sound base t x) (hcom : s.transactions.MayCommit t) : s.Unseen base t x := by
  have hpast : ∀ i, (s.transactions.startCommit t).Past (s.columns i).history := fun i => by
    obtain ⟨undo, written, hinv, -⟩ := h.columns i
    exact hinv.past
  have hsees : ∀ u ∈ s.transactions.active, u ≠ t → ∀ g, ∀ r < (s.rowGroups g).count,
      u.sees ((x.versions g).insertId r) ((x.versions g).deleteId r) =
        u.sees ((s.rowGroups g).insertId r) (s.deleteIdWithout t (g, r)) := by
    intro u hu hne g r hr
    refine ((h.rowGroups g).sees_eq (t := u) hu hr).trans ?_
    rcases h.deleted (g, r) with heq | ⟨hid, hown⟩
    · exact congrArg _ heq
    · change (x.versions g).deleteId r = _ ∨ _ at hown
      rw [TransactionData.sees, TransactionData.sees, deleteIdWithout, if_pos hid,
        (hpast 0).useDeletedVersion (t := t) hcom.active hu hne hown,
        (hpast 0).valid.useDeletedVersion_notDeleted hu]
  have hdeld : ∀ u ∈ s.transactions.active, u.useDeletedVersion notDeletedId = true := fun u hu =>
    (hpast 0).valid.useDeletedVersion_notDeleted (m := s.transactions.startCommit t) hu
  have hz : ∀ u ∈ s.transactions.active, u.useInsertedVersion 0 = true := fun u hu =>
    (hpast 0).valid.settled_zero.useInsertedVersion (m := s.transactions.startCommit t) hu
  refine ⟨fun u hu hne i v => ?_, fun u hu hne g v n hn hv => ?_, fun u hu hne g r hr => ?_⟩
  · obtain ⟨undo, written, hinv, hwr⟩ := h.columns i
    obtain ⟨l, hchn, -⟩ := hinv.vectors v
    have hfree : ∀ d, (s.transactions.startCommit t).committing ≠ some (u, d) := fun d heq =>
      hne (Prod.mk.inj (some.inj heq)).1.symm
    have hst : u.startTime < transactionIdStart - 1 := by
      have hcomg := hinv.past.startTime_lt t _ rfl u hu
      have hlimit := hcom.timestamp
      omega
    obtain ⟨result, hfetch, hrow⟩ := hchn.fetch_eq (hinv.past.restrict _) (t := u) hu hfree hst
    refine ⟨result, hfetch, fun row => ⟨(hrow row).1, (hrow row).2.trans ?_⟩⟩
    change Option.getD (written u.transactionId (v, row)) _ = _
    rw [hwr u hu hne]
    exact congrArg _ (valueAt_restrict (fun row => (v, row)) (fun k : ℕ × ℕ => base i k.1 k.2) _ _ row)
  · rw [RowVersionManager.selected_getSelVector (hdeld u hu) (hz u hu)]
    refine filter_congr fun j hj => ?_
    have hj := mem_range.1 hj
    rw [← hsees u hu hne g _ ((Nat.add_lt_add_left hj _).trans_le hv),
      RowVersionManager.insertId_eq (hj.trans_le hn), RowVersionManager.deleteId_eq (hj.trans_le hn)]
  · rw [RowVersionManager.fetch_eq (hdeld u hu) (hz u hu), hsees u hu hne g r hr]

/-! ## Commits and reverts -/

/-- Some of the nodes and rows of the entries have another id of the transaction. -/
structure Marked (base : ℕ → ℕ → ℕ → Cell T) (t : TransactionData) (s : Tables T) (done : List UndoEntry)
    (x : TableStorage T) : Prop where
  columns : ∀ i, UpdateState.Inv (base i)
    { s.columns i with transactions := s.transactions.startCommit t, segment := x.segments i }
  segments : ∀ i, x.segments i = (s.columns i).segment.withVersions fun v p => x.version (i, v, p)
  version : ∀ k, x.version k = s.storage.version k ∨
    k ∈ done.flatMap UndoEntry.nodes ∧ (s.transactions.startCommit t).Owns t (x.version k)
  rowGroups : ∀ g, RowGroupState.Inv { s.rowGroups g with
    transactions := s.transactions.startCommit t
    versions := x.versions g
    deleteId := (x.versions g).deleteId }
  deleteId : ∀ k, x.deleteId k = s.storage.deleteId k ∨
    k ∈ done.flatMap UndoEntry.rows ∧ (s.transactions.startCommit t).Owns t (x.deleteId k)

theorem Inv.storage_deleteId (h : s.Inv base t) (g r : ℕ) :
    s.storage.deleteId (g, r) = (s.rowGroups g).deleteId r := (h.rowGroups g).deleteId r

theorem Inv.deleteId_eq (h : s.Inv base t) {k : ℕ × ℕ} (hk : k ∈ s.entries.flatMap UndoEntry.rows) :
    s.storage.deleteId k = t.transactionId :=
  (h.storage_deleteId k.1 k.2).trans ((h.deleted k.1 k.2).2 hk)

theorem Inv.version_eq (h : s.Inv base t) {k : ℕ × ℕ × ℕ} (hk : k ∈ s.entries.flatMap UndoEntry.nodes) :
    k.2 ∈ (s.columns k.1).undo ∧ s.storage.version k = t.transactionId :=
  (h.nodes k.1 k.2).2 hk

theorem Inv.marked (h : s.Inv base t) (hcom : s.transactions.MayCommit t) : s.Marked base t [] s.storage where
  columns i := by
    have hinv := (h.columns i).startCommit (t := t) ((h.agree.columns i).symm ▸ hcom)
    rwa [h.agree.columns i] at hinv
  segments _ := rfl
  version _ := .inl rfl
  rowGroups g := by
    have hinv := (h.rowGroups g).startCommit (t := t) ((h.agree.rowGroups g).symm ▸ hcom)
    rw [h.agree.rowGroups g] at hinv
    have hdid : (s.storage.versions g).deleteId = (s.rowGroups g).deleteId := funext (h.rowGroups g).deleteId
    rw [hdid]
    exact hinv
  deleteId _ := .inl rfl

namespace Marked

variable {done : List UndoEntry}

theorem sound (h : s.Marked base t done x) (hs : s.Inv base t) (hdone : ∀ e ∈ done, e ∈ s.entries) :
    s.Sound base t x where
  columns i := ⟨_, _, h.columns i, fun _ _ _ => rfl⟩
  rowGroups := h.rowGroups
  deleted k := by
    by_cases hid : s.storage.deleteId k = t.transactionId
    · refine .inr ⟨hid, ?_⟩
      rcases h.deleteId k with heq | ⟨-, hown⟩
      · exact .inl (heq.trans hid)
      · exact hown
    · rcases h.deleteId k with heq | ⟨hk, -⟩
      · exact .inl (heq.trans (if_neg hid).symm)
      · obtain ⟨e, he, hk⟩ := mem_flatMap.1 hk
        exact absurd (hs.deleteId_eq (mem_flatMap.2 ⟨e, hdone e he, hk⟩)) hid

theorem mono {done' : List UndoEntry} (h : s.Marked base t done x) (hsub : ∀ e ∈ done, e ∈ done') :
    s.Marked base t done' x where
  columns := h.columns
  segments := h.segments
  version k := (h.version k).imp_right fun ⟨hk, hown⟩ => by
    obtain ⟨e, he, hk⟩ := mem_flatMap.1 hk
    exact ⟨mem_flatMap.2 ⟨e, hsub e he, hk⟩, hown⟩
  rowGroups := h.rowGroups
  deleteId k := (h.deleteId k).imp_right fun ⟨hk, hown⟩ => by
    obtain ⟨e, he, hk⟩ := mem_flatMap.1 hk
    exact ⟨mem_flatMap.2 ⟨e, hsub e he, hk⟩, hown⟩

/-- The row group of an entry gets another id for its rows. -/
theorem commitDelete (hcom : s.transactions.MayCommit t) (hrg : ∀ g, RowGroupState.Inv { s.rowGroups g with
      transactions := s.transactions.startCommit t
      versions := x.versions g
      deleteId := (x.versions g).deleteId }) {g v n : ℕ} {rows : ℕ → ℕ} (hrs : (s.rowGroups g).Rows v rows n)
    (hown : (s.transactions.startCommit t).Owns t (x.deleteId (g, v * standardVectorSize + rows 0)))
    (id : ℕ) : ∃ x', x.commitDelete g id (pushDelete v rows n) = some x' ∧ x'.segments = x.segments ∧
      (∀ k, x'.deleteId k = if k ∈ (UndoEntry.deleteTuple g (pushDelete v rows n)).rows then id else x.deleteId k) ∧
      ∀ g, RowGroupState.Inv { s.rowGroups g with
        transactions := s.transactions.startCommit t
        versions := x'.versions g
        deleteId := (x'.versions g).deleteId } := by
  obtain ⟨hz, hdeld⟩ := hcom.owns_ne (hrg g).transactions hown
  have hrs' : RowGroupState.Rows { s.rowGroups g with
      transactions := s.transactions.startCommit t
      versions := x.versions g
      deleteId := (x.versions g).deleteId } v rows n := ⟨hrs.pos, hrs.row_lt, hrs.lt_count⟩
  obtain ⟨m, heq, hinv⟩ := (hrg g).commitDelete_spec hrs' hz hdeld id
  have hm : m.deleteId = RowGroupState.markRows (x.versions g).deleteId v rows n id := funext hinv.deleteId
  refine ⟨{ x with versions := update x.versions g m }, ?_, rfl, fun k => ?_, fun g' => ?_⟩
  · rw [TableStorage.commitDelete, heq]
    rfl
  · obtain ⟨g', r⟩ := k
    rw [TableStorage.deleteId]
    dsimp only
    by_cases hg : g' = g
    · subst hg
      rw [update_self, hm, RowGroupState.mem_rows_iff g']
      rfl
    · rw [update_of_ne hg, if_neg fun hmem => ?_]
      · rfl
      · obtain ⟨i, -, hi⟩ := mem_map.1 hmem
        exact hg (Prod.mk.inj hi).1.symm
  · dsimp only
    by_cases hg : g' = g
    · subst hg
      rw [update_self, hm]
      exact hinv
    · rw [update_of_ne hg]
      exact hrg g'

/-- What has the ids that it had at the start is as it was. -/
theorem restored (h : s.Marked base t done x)
    (hver : ∀ k ∈ done.flatMap UndoEntry.nodes, x.version k = s.storage.version k)
    (hdid : ∀ k ∈ done.flatMap UndoEntry.rows, x.deleteId k = s.storage.deleteId k) :
    s.Marked base t [] x where
  columns := h.columns
  segments := h.segments
  version k := .inl ((h.version k).elim id fun hk => hver k hk.1)
  rowGroups := h.rowGroups
  deleteId k := .inl ((h.deleteId k).elim id fun hk => hdid k hk.1)

theorem segments_eq (h : s.Marked base t [] x) (i : ℕ) : x.segments i = (s.columns i).segment := by
  rw [h.segments i]
  have hver : (fun v p => x.version (i, v, p)) = fun v p => s.storage.version (i, v, p) := by
    funext v p
    exact (h.version (i, v, p)).resolve_right fun hk => absurd hk.1 not_mem_nil
  rw [hver]
  rfl

theorem deleteId_eq (h : s.Marked base t [] x) (k : ℕ × ℕ) : x.deleteId k = s.storage.deleteId k :=
  (h.deleteId k).resolve_right fun hk => absurd hk.1 not_mem_nil

variable (tables : UndoEntry → DataTable) (hs : s.Inv base t) (hcom : s.transactions.MayCommit t)

include hs hcom

theorem revertEntry (h : s.Marked base t done x) {e : UndoEntry} (he : e ∈ s.entries) (id : ℕ)
    (hid : (s.transactions.startCommit t).Owns t id) :
    ∃ x', TableStorage.revertEntry id e x = some x' ∧ s.Marked base t (e :: done) x' ∧
      (∀ k, x'.version k = if k ∈ e.nodes then id else x.version k) ∧
      ∀ k, x'.deleteId k = if k ∈ e.rows then id else x.deleteId k := by
  have hnds : ∀ k ∈ e.nodes, (s.transactions.startCommit t).Owns t (x.version k) := fun k hk => by
    rcases h.version k with heq | hown
    · exact .inl (heq.trans (hs.version_eq (mem_flatMap.2 ⟨e, he, hk⟩)).2)
    · exact hown.2
  have hrs : ∀ k ∈ e.rows, (s.transactions.startCommit t).Owns t (x.deleteId k) := fun k hk => by
    rcases h.deleteId k with heq | hown
    · exact .inl (heq.trans (hs.deleteId_eq (mem_flatMap.2 ⟨e, he, hk⟩)))
    · exact hown.2
  -- what follows from the ids
  have hver : ∀ {x' : TableStorage T}, (∀ k, x'.version k = if k ∈ e.nodes then id else x.version k) →
      ∀ k, x'.version k = s.storage.version k ∨ k ∈ (e :: done).flatMap UndoEntry.nodes ∧
        (s.transactions.startCommit t).Owns t (x'.version k) := by
    intro x' hx' k
    rw [hx', flatMap_cons, mem_append]
    by_cases hk : k ∈ e.nodes
    · rw [if_pos hk]
      exact .inr ⟨.inl hk, hid⟩
    · rw [if_neg hk]
      exact (h.version k).imp_right fun hown => ⟨.inr hown.1, hown.2⟩
  have hdid : ∀ {x' : TableStorage T}, (∀ k, x'.deleteId k = if k ∈ e.rows then id else x.deleteId k) →
      ∀ k, x'.deleteId k = s.storage.deleteId k ∨ k ∈ (e :: done).flatMap UndoEntry.rows ∧
        (s.transactions.startCommit t).Owns t (x'.deleteId k) := by
    intro x' hx' k
    rw [hx', flatMap_cons, mem_append]
    by_cases hk : k ∈ e.rows
    · rw [if_pos hk]
      exact .inr ⟨.inl hk, hid⟩
    · rw [if_neg hk]
      exact (h.deleteId k).imp_right fun hown => ⟨.inr hown.1, hown.2⟩
  cases e with
  | deleteTuple g info =>
    obtain ⟨v, rows, n, rfl, hRows⟩ := hs.deletes g info he
    obtain ⟨x', heq, hsegs, hids, hrg⟩ := commitDelete hcom h.rowGroups hRows
      (hrs _ (mem_map.2 ⟨0, mem_range.2 hRows.pos, rfl⟩)) id
    have hvers : ∀ k, x'.version k = x.version k := fun k => by
      rw [TableStorage.version, hsegs]
      rfl
    have hvers' : ∀ k, x'.version k =
        if k ∈ (UndoEntry.deleteTuple g (pushDelete v rows n)).nodes then id else x.version k := fun k =>
      (hvers k).trans (if_neg not_mem_nil).symm
    refine ⟨x', heq, ⟨fun i => ?_, fun i => ?_, hver hvers', hrg, hdid hids⟩, hvers', hids⟩
    · rw [hsegs]
      exact h.columns i
    · rw [hsegs, funext fun v => funext fun p => hvers (i, v, p)]
      exact h.segments i
  | updateTuple i v p =>
    have hvers : ∀ k, (x.setVersion i v p id).version k =
        if k ∈ (UndoEntry.updateTuple i v p).nodes then id else x.version k := by
      intro k
      rw [TableStorage.setVersion_version]
      exact if_congr mem_singleton.symm rfl rfl
    have hdeleteIds : ∀ k, (x.setVersion i v p id).deleteId k =
        if k ∈ (UndoEntry.updateTuple i v p).rows then id else x.deleteId k := fun k =>
      (if_neg not_mem_nil).symm
    refine ⟨_, rfl, ⟨fun j => ?_, fun j => ?_, hver hvers, h.rowGroups, hdid hdeleteIds⟩, hvers, hdeleteIds⟩
    · rw [TableStorage.setVersion]
      dsimp only
      by_cases hj : j = i
      · subst hj
        rw [update_self]
        exact (h.columns j).setVersion (t := t) (v := v) (p := p) hcom.active
          (hs.version_eq (mem_flatMap.2 ⟨_, he, mem_cons_self⟩)).1 (hnds _ mem_cons_self) hid
      · rw [update_of_ne hj]
        exact h.columns j
    · have hids : (fun w q => (x.setVersion i v p id).version (j, w, q)) =
          fun w q => if (j, w, q) = (i, v, p) then id else x.version (j, w, q) := by
        funext w q
        exact TableStorage.setVersion_version x i v p id (j, w, q)
      rw [hids, TableStorage.setVersion]
      dsimp only
      by_cases hj : j = i
      · subst hj
        rw [update_self, h.segments j, UpdateSegment.withVersions_setVersion]
        refine congrArg _ (funext fun w => funext fun q => if_congr ?_ rfl rfl)
        rw [Prod.mk.injEq j, and_iff_right rfl]
      · rw [update_of_ne hj, h.segments j]
        refine congrArg _ (funext fun w => funext fun q => (if_neg fun heq => hj (Prod.mk.inj heq).1).symm)

theorem commit (l : List UndoEntry) :
    ∀ {done : List UndoEntry} {x : TableStorage T} {seen : List (TableStorage T)}, (∀ e ∈ l, e ∈ s.entries) →
      (∀ e ∈ done, e ∈ s.entries) → s.Marked base t done x → (∀ y ∈ seen, s.Unseen base t y) →
      ∃ x' seen' done' error, runEntries
          (TableStorage.undoHandlers tables t s.transactions.currentStartTimestamp).observed.commitEntry l
            (x, seen) = some ((x', seen'), done', error) ∧
        (∀ e ∈ done', e ∈ l) ∧ s.Marked base t (done ++ done') x' ∧ ∀ y ∈ seen', s.Unseen base t y := by
  induction l with
  | nil =>
    intro done x seen _ _ h hseen
    exact ⟨x, seen, [], none, rfl, fun _ he => he, h.mono fun e he => mem_append_left _ he, hseen⟩
  | cons e l ih =>
    intro done x seen hl hdone h hseen
    have he := hl e mem_cons_self
    change ∃ x' seen' done' error, (Option.map _ (TableStorage.commitEntry tables _ e x)).bind _ = _ ∧ _
    rw [TableStorage.commitEntry_eq]
    cases TableStorage.modificationError (tables e) with
    | some message =>
      refine ⟨x, x :: seen, [e], some message, rfl, fun e' he' => ?_, h.mono fun e he => mem_append_left _ he,
        forall_mem_cons.2 ⟨(h.sound hs hdone).unseen hcom, hseen⟩⟩
      exact mem_singleton.1 he' ▸ mem_cons_self
    | none =>
      obtain ⟨x', heq, h', -⟩ := h.revertEntry hs hcom he
        s.transactions.currentStartTimestamp (.inr rfl)
      have hdone' : ∀ e' ∈ e :: done, e' ∈ s.entries := forall_mem_cons.2 ⟨he, hdone⟩
      obtain ⟨x'', seen', done', error, hrun, hsub, h'', hseen'⟩ := ih
        (fun e' he' => hl e' (mem_cons_of_mem _ he')) hdone' h'
        (forall_mem_cons.2 ⟨(h'.sound hs hdone').unseen hcom, hseen⟩)
      refine ⟨x'', seen', e :: done', error, ?_, forall_mem_cons.2
        ⟨mem_cons_self, fun e' he' => mem_cons_of_mem _ (hsub e' he')⟩, h''.mono fun e' he' => ?_, hseen'⟩
      · rw [heq, map_some, map_some, bind_some]
        dsimp only
        rw [hrun]
        rfl
      · rw [cons_append, mem_cons, mem_append] at he'
        rw [mem_append, mem_cons]
        exact or_left_comm.1 he'

theorem revert {done : List UndoEntry} (hdone : ∀ e ∈ done, e ∈ s.entries) (c : ℕ) (l : List UndoEntry) :
    ∀ {x : TableStorage T} {seen : List (TableStorage T)}, (∀ e ∈ l, e ∈ done) →
      s.Marked base t done x → (∀ y ∈ seen, s.Unseen base t y) →
      ∃ x' seen', l.foldlM (fun s e => (TableStorage.undoHandlers tables t c).observed.revertEntry e s) (x, seen) =
          some (x', seen') ∧
        s.Marked base t done x' ∧
        (∀ k, x'.version k = if k ∈ l.flatMap UndoEntry.nodes then t.transactionId else x.version k) ∧
        (∀ k, x'.deleteId k = if k ∈ l.flatMap UndoEntry.rows then t.transactionId else x.deleteId k) ∧
        ∀ y ∈ seen', s.Unseen base t y := by
  induction l with
  | nil =>
    intro x seen _ h hseen
    exact ⟨x, seen, rfl, h, fun k => (if_neg not_mem_nil).symm, fun k => (if_neg not_mem_nil).symm, hseen⟩
  | cons e l ih =>
    intro x seen hl h hseen
    have he := hl e mem_cons_self
    obtain ⟨x', heq, h', hver, hdid⟩ := h.revertEntry hs hcom (hdone e he)
      t.transactionId (.inl rfl)
    have h' : s.Marked base t done x' := h'.mono (forall_mem_cons.2 ⟨he, fun _ => id⟩)
    obtain ⟨x'', seen', hrun, h'', hver', hdid', hseen'⟩ := ih
      (fun e' he' => hl e' (mem_cons_of_mem _ he')) h'
      (forall_mem_cons.2 ⟨(h'.sound hs hdone).unseen hcom, hseen⟩)
    refine ⟨x'', seen', ?_, h'', fun k => ?_, fun k => ?_, hseen'⟩
    · change (Option.map _ (TableStorage.revertEntry t.transactionId e x)).bind _ = _
      rw [heq]
      exact hrun
    · rw [hver', hver, flatMap_cons]
      by_cases hk : k ∈ l.flatMap UndoEntry.nodes
      · rw [if_pos hk, if_pos (mem_append_right _ hk)]
      · rw [if_neg hk]
        exact if_congr (mem_append.trans (or_iff_left hk)).symm rfl rfl
    · rw [hdid', hdid, flatMap_cons]
      by_cases hk : k ∈ l.flatMap UndoEntry.rows
      · rw [if_pos hk, if_pos (mem_append_right _ hk)]
      · rw [if_neg hk]
        exact if_congr (mem_append.trans (or_iff_left hk)).symm rfl rfl

end Marked

/-! ## Rollbacks -/

/-- Some of the entries have been rolled back. -/
structure RolledBack (base : ℕ → ℕ → ℕ → Cell T) (t : TransactionData) (s : Tables T) (done : List UndoEntry)
    (x : TableStorage T) : Prop where
  columns : ∀ i, ∃ undo written, UpdateState.Inv (base i)
      ⟨s.transactions.startCommit t, x.segments i, undo, written, (s.columns i).history⟩ ∧
    (∀ q ∈ (s.columns i).undo, (i, q) ∉ done.flatMap UndoEntry.nodes → q ∈ undo) ∧
    ∀ u ∈ s.transactions.active, u ≠ t → written u.transactionId = (s.columns i).written u.transactionId
  chains : ∀ i v, ((∀ p, (i, v, p) ∉ done.flatMap UndoEntry.nodes) ∧
      (x.segments i).chains v = (s.columns i).segment.chains v) ∨
    ∃ p, (i, v, p) ∈ done.flatMap UndoEntry.nodes ∧
      (x.segments i).chains v = ((s.columns i).segment.chains v).rollbackUpdate p
  rowGroups : ∀ g, RowGroupState.Inv { s.rowGroups g with
    transactions := s.transactions.startCommit t
    versions := x.versions g
    deleteId := (x.versions g).deleteId }
  deleteId : ∀ k, x.deleteId k = if k ∈ done.flatMap UndoEntry.rows then notDeletedId else s.storage.deleteId k

theorem Marked.rolledBack (h : s.Marked base t [] x) : s.RolledBack base t [] x where
  columns i := ⟨_, _, h.columns i, fun _ hq _ => hq, fun _ _ _ => rfl⟩
  chains i v := .inl ⟨fun _ => not_mem_nil, by rw [h.segments_eq]⟩
  rowGroups := h.rowGroups
  deleteId k := (h.deleteId_eq k).trans (if_neg not_mem_nil).symm

/-- A transaction has one node of a vector. -/
theorem Inv.node_unique (h : s.Inv base t) {i v p q : ℕ} (hp : (i, v, p) ∈ s.entries.flatMap UndoEntry.nodes)
    (hq : (i, v, q) ∈ s.entries.flatMap UndoEntry.nodes) : p = q := by
  obtain ⟨hp, hpv⟩ := h.version_eq hp
  obtain ⟨hq, hqv⟩ := h.version_eq hq
  obtain ⟨l, hinv, hl⟩ := (h.columns i).vectors v
  have ht : t ∈ (s.columns i).transactions.active := (h.agree.columns i).symm ▸ h.active
  cases hinv with
  | empty => exact absurd ((hl p).1 hp) not_mem_nil
  | chain root l hshp hvers =>
    exact hvers.unique t ht p ((hl p).1 hp) q ((hl q).1 hq) (.inl hpv) (.inl hqv)

namespace RolledBack

variable {done : List UndoEntry}

theorem sound (h : s.RolledBack base t done x) (hs : s.Inv base t) (hdone : ∀ e ∈ done, e ∈ s.entries) :
    s.Sound base t x where
  columns i := by
    obtain ⟨undo, written, hinv, -, hwr⟩ := h.columns i
    exact ⟨undo, written, hinv, hwr⟩
  rowGroups := h.rowGroups
  deleted k := by
    rw [h.deleteId k, deleteIdWithout]
    by_cases hk : k ∈ done.flatMap UndoEntry.rows
    · obtain ⟨e, he, hk'⟩ := mem_flatMap.1 hk
      rw [if_pos hk, if_pos (hs.deleteId_eq (mem_flatMap.2 ⟨e, hdone e he, hk'⟩))]
      exact .inl rfl
    · rw [if_neg hk]
      by_cases hid : s.storage.deleteId k = t.transactionId
      · exact .inr ⟨hid, .inl hid⟩
      · exact .inl (if_neg hid).symm

theorem rollbackEntry (h : s.RolledBack base t done x) (hs : s.Inv base t) (hcom : s.transactions.MayCommit t)
    (hdone : ∀ e ∈ done, e ∈ s.entries) {e : UndoEntry} (he : e ∈ s.entries)
    (hdisj : ∀ e' ∈ done, e'.Disjoint e) :
    ∃ x', TableStorage.rollbackEntry e x = some x' ∧ s.RolledBack base t (e :: done) x' := by
  cases e with
  | deleteTuple g info =>
    obtain ⟨v, rows, n, rfl, hRows⟩ := hs.deletes g info he
    have hfst : (g, v * standardVectorSize + rows 0) ∈ (UndoEntry.deleteTuple g (pushDelete v rows n)).rows :=
      mem_map.2 ⟨0, mem_range.2 hRows.pos, rfl⟩
    have hown : (s.transactions.startCommit t).Owns t (x.deleteId (g, v * standardVectorSize + rows 0)) := by
      refine .inl (((h.deleteId _).trans (if_neg fun hmem => ?_)).trans
        (hs.deleteId_eq (mem_flatMap.2 ⟨_, he, hfst⟩)))
      obtain ⟨e', he', hk⟩ := mem_flatMap.1 hmem
      exact (hdisj e' he').2 hk hfst
    obtain ⟨x', heq, hsegs, hids, hrg⟩ := Marked.commitDelete hcom h.rowGroups hRows hown notDeletedId
    refine ⟨x', heq, fun i => ?_, fun i v' => ?_, hrg, fun k => ?_⟩
    · rw [hsegs]
      exact h.columns i
    · rw [hsegs]
      exact h.chains i v'
    · rw [hids, h.deleteId, flatMap_cons]
      by_cases hk : k ∈ done.flatMap UndoEntry.rows
      · rw [if_pos hk, if_pos (mem_append_right _ hk), ite_self]
      · rw [if_neg hk]
        exact if_congr (mem_append.trans (or_iff_left hk)).symm rfl rfl
  | updateTuple i v p =>
    have hnode : (i, v, p) ∈ s.entries.flatMap UndoEntry.nodes := mem_flatMap.2 ⟨_, he, mem_cons_self⟩
    have hfr : (i, v, p) ∉ done.flatMap UndoEntry.nodes := fun hmem => by
      obtain ⟨e', he', hk⟩ := mem_flatMap.1 hmem
      exact (hdisj e' he').1 hk mem_cons_self
    -- the vector has not been rolled back so far
    have hchn : (x.segments i).chains v = (s.columns i).segment.chains v := by
      refine (h.chains i v).elim And.right fun ⟨q, hq, _⟩ => ?_
      obtain ⟨e', he', hk⟩ := mem_flatMap.1 hq
      obtain rfl := hs.node_unique hnode (mem_flatMap.2 ⟨e', hdone e' he', hk⟩)
      exact absurd hq hfr
    refine ⟨_, rfl, fun j => ?_, fun j w => ?_, h.rowGroups, h.deleteId⟩
    · rw [TableStorage.rollbackUpdate]
      dsimp only
      obtain ⟨undo, written, hinv, hundo, hwr⟩ := h.columns j
      by_cases hj : j = i
      · subst hj
        rw [update_self]
        have hver : UpdateChain.version ((x.segments j).chains v) p = t.transactionId := by
          rw [hchn]
          exact (hs.version_eq hnode).2
        have hinv' := hinv.rollbackUpdate (t := t) (v := v) (p := p) hcom.active
          (hundo _ (hs.version_eq hnode).1 hfr) (.inl hver)
        refine ⟨_, _, hinv', fun q hq hmem => ?_, fun u hu hne => ?_⟩
        · rw [flatMap_cons, mem_append, not_or] at hmem
          refine mem_filter.2 ⟨hundo q hq hmem.2, decide_eq_true fun heq => hmem.1 ?_⟩
          rw [heq]
          exact mem_cons_self
        · rw [update_of_ne fun heq => hne (hinv.past.valid.transactionId_inj u hu t hcom.active heq)]
          exact hwr u hu hne
      · rw [update_of_ne hj]
        refine ⟨undo, written, hinv, fun q hq hmem => hundo q hq fun hmem' => hmem ?_, hwr⟩
        exact mem_append_right _ hmem'
    · rw [TableStorage.rollbackUpdate]
      dsimp only
      have hcons : ∀ k, k ∈ (UndoEntry.updateTuple i v p :: done).flatMap UndoEntry.nodes ↔
          k = (i, v, p) ∨ k ∈ done.flatMap UndoEntry.nodes := fun k => by
        rw [flatMap_cons, mem_append]
        exact or_congr_left mem_singleton
      by_cases hj : j = i
      · subst hj
        rw [update_self]
        dsimp only
        by_cases hw : w = v
        · subst hw
          rw [update_self, hchn]
          exact .inr ⟨p, (hcons _).2 (.inl rfl), rfl⟩
        · rw [update_of_ne hw]
          refine (h.chains j w).imp (fun ⟨hno, heq⟩ => ⟨fun q hq => ?_, heq⟩) fun ⟨q, hq, heq⟩ =>
            ⟨q, (hcons _).2 (.inr hq), heq⟩
          exact ((hcons _).1 hq).elim (fun heq => hw (Prod.mk.inj (Prod.mk.inj heq).2).1) (hno q)
      · rw [update_of_ne hj]
        refine (h.chains j w).imp (fun ⟨hno, heq⟩ => ⟨fun q hq => ?_, heq⟩) fun ⟨q, hq, heq⟩ =>
          ⟨q, (hcons _).2 (.inr hq), heq⟩
        exact ((hcons _).1 hq).elim (fun heq => hj (Prod.mk.inj heq).1) (hno q)

theorem rollback (tables : UndoEntry → DataTable) (hs : s.Inv base t) (hcom : s.transactions.MayCommit t)
    (c : ℕ) (l : List UndoEntry) :
    ∀ {done : List UndoEntry} {x : TableStorage T} {seen : List (TableStorage T)},
      done.reverse ++ l = s.entries.reverse → s.RolledBack base t done x → (∀ y ∈ seen, s.Unseen base t y) →
      ∃ x' seen' done', l.foldlM (fun s e => (TableStorage.undoHandlers tables t c).observed.rollbackEntry e s)
          (x, seen) = some (x', seen') ∧
        (∀ e, e ∈ done' ↔ e ∈ s.entries) ∧ s.RolledBack base t done' x' ∧ ∀ y ∈ seen', s.Unseen base t y := by
  induction l with
  | nil =>
    intro done x seen hdone h hseen
    refine ⟨x, seen, done, rfl, fun e => ?_, h, hseen⟩
    rw [← mem_reverse, ← append_nil done.reverse, hdone, mem_reverse]
  | cons e l ih =>
    intro done x seen hdone h hseen
    have hmem : ∀ e' ∈ done.reverse ++ e :: l, e' ∈ s.entries := fun e' he' =>
      mem_reverse.1 (hdone ▸ he')
    have hpw : (done.reverse ++ e :: l).Pairwise UndoEntry.Disjoint := by
      rw [hdone, pairwise_reverse]
      exact hs.disjoint.imp UndoEntry.Disjoint.symm
    have hdone' : ∀ e' ∈ done, e' ∈ s.entries := fun e' he' =>
      hmem e' (mem_append_left _ (mem_reverse.2 he'))
    have he := hmem e (mem_append_right _ mem_cons_self)
    obtain ⟨x', heq, h'⟩ := h.rollbackEntry hs hcom hdone' he fun e' he' =>
      (pairwise_append.1 hpw).2.2 e' (mem_reverse.2 he') e mem_cons_self
    obtain ⟨x'', seen', done', hrun, hres⟩ := ih
      (by rw [reverse_cons, append_assoc]; exact hdone) h'
      (forall_mem_cons.2 ⟨(h'.sound hs (forall_mem_cons.2 ⟨he, hdone'⟩)).unseen hcom, hseen⟩)
    refine ⟨x'', seen', done', ?_, hres⟩
    change (Option.map _ (TableStorage.rollbackEntry e x)).bind _ = _
    rw [heq]
    exact hrun

end RolledBack

/-! ## Failed commits -/

section Failed

variable (tables : UndoEntry → DataTable) {b : List (UndoChunk UndoEntry)}

/-- After a failure the ids are put back, and all entries are rolled back. -/
theorem Marked.undo {done : List UndoEntry} {seen : List (TableStorage T)} (h : s.Marked base t done x)
    (hs : s.Inv base t) (hcom : s.transactions.MayCommit t) (hdone : ∀ e ∈ done, e ∈ s.entries)
    (hseen : ∀ y ∈ seen, s.Unseen base t y) (c : ℕ) (hb : undoEntries b = s.entries) :
    ∃ x' seen' done', ((done.foldlM (fun s e => (TableStorage.undoHandlers tables t c).observed.revertEntry e s)
        (x, seen)).bind fun z => (TableStorage.undoHandlers tables t c).observed.rollback b z) = some (x', seen') ∧
      (∀ e, e ∈ done' ↔ e ∈ s.entries) ∧ s.RolledBack base t done' x' ∧ ∀ y ∈ seen', s.Unseen base t y := by
  obtain ⟨x', seen', hrev, h', hver, hdid, hseen'⟩ := h.revert tables hs hcom hdone c done
    (fun _ he => he) hseen
  have hents : ∀ {κ : Type} {f : UndoEntry → List κ} {k : κ}, k ∈ done.flatMap f → k ∈ s.entries.flatMap f :=
    fun {κ f k} hk => by
      obtain ⟨e, he, hk⟩ := mem_flatMap.1 hk
      exact mem_flatMap.2 ⟨e, hdone e he, hk⟩
  have hrestored := h'.restored (fun k hk => ((hver k).trans (if_pos hk)).trans (hs.version_eq (hents hk)).2.symm)
    fun k hk => ((hdid k).trans (if_pos hk)).trans (hs.deleteId_eq (hents hk)).symm
  obtain ⟨x'', seen'', done', hroll, hdone', hres, hseen''⟩ := RolledBack.rollback tables hs hcom c
    s.entries.reverse rfl hrestored.rolledBack hseen'
  refine ⟨x'', seen'', done', ?_, hdone', hres, hseen''⟩
  rw [hrev, bind_some, UndoHandlers.rollback_eq, hb, hroll]

/-- A commit does not get stuck. If it fails, all entries are rolled back. -/
theorem Inv.commitTransaction (hs : s.Inv base t) (hcom : s.transactions.MayCommit t)
    (hb : undoEntries b = s.entries) (storageError flushError : Option String) :
    ∃ x seen error, (TableStorage.undoHandlers tables t
        s.transactions.currentStartTimestamp).observed.commitTransaction b storageError flushError
          (s.storage, [s.storage]) = some ((x, seen), error) ∧
      (∀ y ∈ seen, s.Unseen base t y) ∧
      (error ≠ none → ∃ done, (∀ e, e ∈ done ↔ e ∈ s.entries) ∧ s.RolledBack base t done x) := by
  have hmarked := hs.marked hcom
  have hno : ∀ e ∈ ([] : List UndoEntry), e ∈ s.entries := fun e he => absurd he not_mem_nil
  have hall : s.Marked base t s.entries s.storage := hmarked.mono hno
  have hseen : ∀ y ∈ [s.storage], s.Unseen base t y := forall_mem_singleton.2 ((hmarked.sound hs hno).unseen hcom)
  rw [UndoHandlers.commitTransaction, UndoHandlers.commit_eq, hb]
  cases storageError with
  | some message =>
    obtain ⟨x, seen, done, heq, hdone, hres, hseen⟩ := hall.undo tables hs hcom
      (fun _ he => he) hseen s.transactions.currentStartTimestamp hb
    refine ⟨x, seen, some message, ?_, hseen, fun _ => ⟨done, hdone, hres⟩⟩
    rw [bind_map]
    obtain ⟨z, hz, hroll⟩ := bind_eq_some_iff.1 heq
    rw [hz, bind_some]
    change Option.map _ (UndoHandlers.rollback _ _ z) = _
    rw [hroll]
    rfl
  | none =>
    obtain ⟨x, seen, done, error, hrun, hdone, hcomd, hseen⟩ := hmarked.commit tables hs hcom
      s.entries (fun _ he => he) hno hseen
    rw [hrun, bind_some]
    dsimp only
    cases error.or flushError with
    | none => exact ⟨x, seen, none, rfl, hseen, fun hne => absurd rfl hne⟩
    | some message =>
      obtain ⟨x', seen', done', heq, hdone', hres, hseen'⟩ := hcomd.undo tables hs hcom
        hdone hseen s.transactions.currentStartTimestamp hb
      refine ⟨x', seen', some message, ?_, hseen', fun _ => ⟨done', hdone', hres⟩⟩
      obtain ⟨z, hz, hroll⟩ := bind_eq_some_iff.1 heq
      rw [nil_append] at hz
      dsimp only
      rw [hz, map_some, bind_some]
      change Option.map _ (UndoHandlers.rollback _ _ z) = _
      rw [hroll]
      rfl

end Failed

theorem RolledBack.without {done : List UndoEntry} (h : s.RolledBack base t done x) (hs : s.Inv base t)
    (hdone : ∀ e, e ∈ done ↔ e ∈ s.entries) :
    (∀ i v, ((x.segments i).chains v).updates = ((s.columns i).segment.chains v).updatesWithout t.transactionId ∧
      ∀ k, (((x.segments i).chains v).newest k).getD (base i v k) =
        ((s.columns i).segment.chains v).valueWithout t.transactionId (base i v) k) ∧
      ∀ k, x.deleteId k = s.deleteIdWithout t k := by
  have hents : ∀ {κ : Type} {f : UndoEntry → List κ} {k : κ}, k ∈ done.flatMap f ↔ k ∈ s.entries.flatMap f :=
    fun {κ f k} => by
      rw [mem_flatMap, mem_flatMap]
      exact exists_congr fun e => and_congr_left fun _ => hdone e
  refine ⟨fun i v => ?_, fun k => ?_⟩
  · obtain ⟨l, hinv, hl⟩ := (hs.columns i).vectors v
    have ht : t ∈ (s.columns i).transactions.active := (hs.agree.columns i).symm ▸ hs.active
    rcases h.chains i v with ⟨hno, heq⟩ | ⟨p, hp, heq⟩
    · have hver : ∀ p ∈ l, ((s.columns i).segment.chains v).version p ≠ t.transactionId := fun p hp hid =>
        hno p (hents.2 ((hs.nodes i (v, p)).1 ⟨(hl p).2 hp, hid⟩))
      obtain ⟨hupds, hval⟩ := hinv.without_eq hver
      rw [heq]
      exact ⟨hupds.symm, fun k => (hval k).symm⟩
    · obtain ⟨hundo, hver⟩ := (hs.nodes i (v, p)).2 (hents.1 hp)
      rw [heq]
      exact hinv.rollbackUpdate_without ht ((hl p).1 hundo) hver
  · rw [h.deleteId, deleteIdWithout]
    refine if_congr (hents.trans ?_) rfl rfl
    rw [← hs.deleted k.1 k.2, hs.storage_deleteId k.1 k.2]

/-! ## Own changes -/

/-- What does not depend on the changes of a transaction is the same. -/
structure Kept (base : ℕ → ℕ → ℕ → Cell T) (t : TransactionData) (s s' : Tables T) : Prop where
  transactions : s'.transactions = s.transactions
  history : ∀ i, (s'.columns i).history = (s.columns i).history
  written : ∀ i id, id ≠ t.transactionId → (s'.columns i).written id = (s.columns i).written id
  updates : ∀ i v, ((s'.columns i).segment.chains v).updatesWithout t.transactionId =
      ((s.columns i).segment.chains v).updatesWithout t.transactionId ∧
    ∀ k, ((s'.columns i).segment.chains v).valueWithout t.transactionId (base i v) k =
      ((s.columns i).segment.chains v).valueWithout t.transactionId (base i v) k
  count : ∀ g, (s'.rowGroups g).count = (s.rowGroups g).count
  insertId : ∀ g, (s'.rowGroups g).insertId = (s.rowGroups g).insertId
  deleteId : ∀ k, s'.deleteIdWithout t k = s.deleteIdWithout t k

theorem Kept.refl : s.Kept base t s :=
  ⟨rfl, fun _ => rfl, fun _ _ _ => rfl, fun _ _ => ⟨rfl, fun _ => rfl⟩, fun _ => rfl, fun _ => rfl, fun _ => rfl⟩

theorem Kept.trans {s' s'' : Tables T} (h : s.Kept base t s') (h' : s'.Kept base t s'') : s.Kept base t s'' where
  transactions := h'.transactions.trans h.transactions
  history i := (h'.history i).trans (h.history i)
  written i id hid := (h'.written i id hid).trans (h.written i id hid)
  updates i v := ⟨(h'.updates i v).1.trans (h.updates i v).1, fun k => ((h'.updates i v).2 k).trans ((h.updates i v).2 k)⟩
  count g := (h'.count g).trans (h.count g)
  insertId g := (h'.insertId g).trans (h.insertId g)
  deleteId k := (h'.deleteId k).trans (h.deleteId k)

theorem Unseen.kept {s' : Tables T} {y : TableStorage T} (hkept : s.Kept base t s') (h : s'.Unseen base t y)
    (hid : ∀ u ∈ s.transactions.active, u ≠ t → u.transactionId ≠ t.transactionId) : s.Unseen base t y where
  updates u hu hne i v := by
    obtain ⟨result, hfetch, hrow⟩ := h.updates u (hkept.transactions ▸ hu) hne i v
    rw [hkept.written i _ (hid u hu hne), hkept.history i] at hrow
    exact ⟨result, hfetch, hrow⟩
  selected u hu hne g v n hn hv := by
    refine (h.selected u (hkept.transactions ▸ hu) hne g v n hn (hkept.count g ▸ hv)).trans ?_
    rw [hkept.insertId g]
    exact filter_congr fun j _ => congrArg _ (hkept.deleteId _)
  fetched u hu hne g r hr := by
    refine (h.fetched u (hkept.transactions ▸ hu) hne g r (hkept.count g ▸ hr)).trans ?_
    rw [hkept.insertId g, hkept.deleteId]

variable [BEq T] {sort : IndexSort}

/-- A transaction does not change what is there without it. -/
theorem Inv.kept {s' : Tables T} (hs : s.Inv base t) (hchg : Change sort base t s s') : s.Kept base t s' := by
  have hs' := hs.change hchg
  cases hchg with
  | update i u v r hu hr =>
    have ht : t ∈ (s.columns i).transactions.active := (hs.agree.columns i).symm ▸ hs.active
    have hfree : ∀ c, (s.columns i).transactions.committing ≠ some (t, c) := (hs.agree.columns i).symm ▸ hs.free
    obtain ⟨-, -, hwithout⟩ := (hs.columns i).update_without sort ht hfree hu hr
    refine ⟨rfl, fun j => ?_, fun j id hid => ?_, fun j w => ?_, fun _ => rfl, fun _ => rfl, fun _ => rfl⟩
    all_goals
      dsimp only
      by_cases hj : j = i
      on_goal 2 => rw [update_of_ne hj]
      on_goal 1 => rw [hj, update_self]
    · cases r.error with
      | none => exact update_of_ne hid _ _
      | some message => rfl
    · exact hwithout w
    · exact ⟨rfl, fun _ => rfl⟩
  | delete g v rows n hrs hsees =>
    have ht : t ∈ (s.rowGroups g).transactions.active := (hs.agree.rowGroups g).symm ▸ hs.active
    refine ⟨rfl, fun _ => rfl, fun _ _ _ => rfl, fun _ _ => ⟨rfl, fun _ => rfl⟩, fun g' => ?_, fun g' => ?_,
      fun k => ?_⟩
    iterate 2
      · dsimp only
        by_cases hg : g' = g
        · rw [hg, update_self]
        · rw [update_of_ne hg]
    · -- the rows that get the id had not been deleted
      have hid : ∀ {n n' : ℕ}, n = n' ∨ n = t.transactionId ∧ n' = notDeletedId →
          (if n = t.transactionId then notDeletedId else n) = if n' = t.transactionId then notDeletedId else n' := by
        rintro n n' (rfl | ⟨rfl, rfl⟩)
        · rfl
        · rw [if_pos rfl, ite_self]
      obtain ⟨g', r⟩ := k
      rw [deleteIdWithout, deleteIdWithout, hs'.storage_deleteId, hs.storage_deleteId]
      refine hid ?_
      dsimp only
      by_cases hg : g' = g
      · subst hg
        rw [update_self]
        rcases (hs.rowGroups g').deleteRows_cases ht hrs hsees with hno | ⟨rows', n', hsome, -, hund⟩
        · rw [hno]
          exact .inl rfl
        · rw [hsome]
          dsimp only
          rw [RowGroupState.markRows]
          by_cases hr : r ∈ (range n').map fun j => v * standardVectorSize + rows' j
          · obtain ⟨j, hj, rfl⟩ := mem_map.1 hr
            rw [if_pos hr]
            exact .inr ⟨rfl, hund j (mem_range.1 hj)⟩
          · rw [if_neg hr]
            exact .inl rfl
      · rw [update_of_ne hg]
        exact .inl rfl

theorem Begin.kept {s₀ : Tables T} (hbeg : s₀.Begin sort base t) (hrun : Reachable (· = s₀) (Change sort base t) s) :
    s₀.Kept base t s := by
  have hinit : ∀ s, s = s₀ → s.Inv base t ∧ s₀.Kept base t s := fun s heq => heq.symm ▸ ⟨hbeg.inv, .refl⟩
  exact (hrun.invariant hinit fun _ _ _ hinv hchg =>
    ⟨hinv.1.change hchg, hinv.2.trans (hinv.1.kept hchg)⟩).2

/-! ## The theorem -/

/-- A transaction reads the same of two storages. -/
structure ReadsAs (base : ℕ → ℕ → ℕ → Cell T) (s : Tables T) (u : TransactionData) (x y : TableStorage T) :
    Prop where
  updates : ∀ i v, ((x.segments i).chains v).fetchUpdates u (base i v) =
    ((y.segments i).chains v).fetchUpdates u (base i v)
  row : ∀ i v row, ((x.segments i).chains v).fetchRow u row (base i v row) =
    ((y.segments i).chains v).fetchRow u row (base i v row)
  selected : ∀ g v n, n ≤ standardVectorSize → v * standardVectorSize + n ≤ (s.rowGroups g).count →
    ((x.versions g).getSelVector u v n).selected n = ((y.versions g).getSelVector u v n).selected n
  fetched : ∀ g, ∀ r < (s.rowGroups g).count, (x.versions g).fetch u r = (y.versions g).fetch u r

omit [BEq T] in
theorem Unseen.readsAs {y : TableStorage T} (hx : s.Unseen base t x) (hy : s.Unseen base t y)
    {u : TransactionData} (hu : u ∈ s.transactions.active) (hne : u ≠ t) : s.ReadsAs base u x y where
  updates i v := by
    obtain ⟨result, hfetch, hrow⟩ := hx.updates u hu hne i v
    obtain ⟨result', hfetch', hrow'⟩ := hy.updates u hu hne i v
    rw [hfetch, hfetch']
    exact congrArg some (funext fun k => (hrow k).2.trans (hrow' k).2.symm)
  row i v row := by
    obtain ⟨result, -, hrow⟩ := hx.updates u hu hne i v
    obtain ⟨result', -, hrow'⟩ := hy.updates u hu hne i v
    rw [(hrow row).1, (hrow' row).1, (hrow row).2, (hrow' row).2]
  selected g v n hn hv := (hx.selected u hu hne g v n hn hv).trans (hy.selected u hu hne g v n hn hv).symm
  fetched g r hr := (hx.fetched u hu hne g r hr).trans (hy.fetched u hu hne g r hr).symm

/-- What a transaction has done is undone wherever its commit fails, and the others never see it. If only the
    transaction has changed anything since its first change, everything is as before. -/
theorem commitTransaction_undone {s₀ : Tables T} (hbegin : s₀.Begin sort base t)
    (hrun : Reachable (· = s₀) (Next sort base t) s) (hcommit : s.transactions.MayCommit t)
    (tables : UndoEntry → DataTable) (storageError flushError : Option String)
    (b : List (UndoChunk UndoEntry)) (hb : undoEntries b = s.entries) :
    ∃ x seen error, (TableStorage.undoHandlers tables t
        s.transactions.currentStartTimestamp).observed.commitTransaction b storageError flushError
          (s.storage, [s.storage]) = some ((x, seen), error) ∧
      (∀ y ∈ seen, s.Unseen base t y) ∧
      (error ≠ none → s.Unseen base t x ∧ (∀ i v, ((x.segments i).chains v).updates =
            ((s.columns i).segment.chains v).updatesWithout t.transactionId ∧
          ∀ k, (((x.segments i).chains v).newest k).getD (base i v k) =
            ((s.columns i).segment.chains v).valueWithout t.transactionId (base i v) k) ∧
        (∀ k, x.deleteId k = s.deleteIdWithout t k) ∧
        (Reachable (· = s₀) (Change sort base t) s →
          (∀ i v, ((x.segments i).chains v).updates = ((s₀.columns i).segment.chains v).updates ∧
            ∀ k, (((x.segments i).chains v).newest k).getD (base i v k) =
              (((s₀.columns i).segment.chains v).newest k).getD (base i v k)) ∧
          (∀ k, x.deleteId k = s₀.storage.deleteId k) ∧
          ∀ u ∈ s₀.transactions.active, u ≠ t → ∀ y ∈ x :: seen, s₀.ReadsAs base u y s₀.storage)) := by
  have hinit : ∀ s, s = s₀ → s.Inv base t := fun s heq => heq.symm ▸ hbegin.inv
  have hs := hrun.invariant hinit fun _ _ _ hinv hnx => hinv.next hnx
  obtain ⟨x, seen, error, heq, hseen, hres⟩ := hs.commitTransaction tables hcommit hb storageError flushError
  refine ⟨x, seen, error, heq, hseen, fun herror => ?_⟩
  obtain ⟨done, hdone, hrolled⟩ := hres herror
  have hx := (hrolled.sound hs fun e he => (hdone e).1 he).unseen hcommit
  obtain ⟨hupds, hdid⟩ := hrolled.without hs hdone
  refine ⟨hx, hupds, hdid, fun hown => ?_⟩
  have hkept := hbegin.kept hown
  have hs₀ := hbegin.inv
  have hcom₀ : s₀.transactions.MayCommit t := hkept.transactions ▸ hcommit
  -- before its first change, the transaction has no nodes, and has not deleted rows
  refine ⟨fun i v => ?_, fun k => ?_, fun u hu hne y hy => ?_⟩
  · obtain ⟨l, hinv, hl⟩ := (hs₀.columns i).vectors v
    obtain ⟨hnds, hval⟩ := hinv.without_eq fun p hp =>
      hbegin.nodes i (v, p) ((hl p).2 hp)
    obtain ⟨hupds, hvals⟩ := hupds i v
    obtain ⟨hkept, hkept'⟩ := hkept.updates i v
    exact ⟨(hupds.trans hkept).trans hnds, fun k => ((hvals k).trans (hkept' k)).trans (hval k)⟩
  · rw [hdid, hkept.deleteId, deleteIdWithout, if_neg]
    rw [hs₀.storage_deleteId k.1 k.2]
    exact hbegin.deleted k.1 k.2
  · have hid : ∀ u ∈ s₀.transactions.active, u ≠ t → u.transactionId ≠ t.transactionId := fun u hu hne heq =>
      hne ((hs₀.rowGroups 0).transactions.transactionId_inj u (hs₀.agree.rowGroups 0 ▸ hu) t
        (hs₀.agree.rowGroups 0 ▸ hs₀.active) heq)
    have hmarked := (hs₀.marked hcom₀).sound hs₀ fun e he => absurd he not_mem_nil
    refine Unseen.readsAs (Unseen.kept hkept ?_ hid) (hmarked.unseen hcom₀) hu hne
    rcases mem_cons.1 hy with rfl | hy
    · exact hx
    · exact hseen y hy

/-! ## An update that fails -/

/-- Two transactions have started. -/
def twoStarted : Tables ℕ := ⟨UpdateState.twoStarted.transactions, fun _ => UpdateState.twoStarted,
    fun _ => ⟨UpdateState.twoStarted.transactions, .new, false, 0, fun _ => 0, fun _ => notDeletedId, none⟩, []⟩

theorem twoStarted_begin : twoStarted.Begin .stable (fun _ => UpdateState.fives) ⟨transactionIdStart + 1, 3⟩ where
  agree := ⟨fun _ => rfl, fun _ => rfl⟩
  columns _ := UpdateState.reachable_twoStarted
  rowGroups _ := .step (.step (.start (s := ⟨.new, .new, false, 0, fun _ => 0, fun _ => notDeletedId, none⟩)
    ⟨rfl, .inl rfl, fun _ => rfl, fun _ => rfl, rfl⟩) (.start _ ⟨transactionIdStart, 2⟩ _ rfl))
      (.start _ ⟨transactionIdStart + 1, 3⟩ _ rfl)
  active := mem_cons_self
  free := fun _ => nofun
  nodes := fun _ _ hq => absurd hq not_mem_nil
  deleted := fun _ _ => by
    change notDeletedId ≠ transactionIdStart + 1
    decide
  entries := rfl

/-- The second one has updated the first row of the first column. -/
def oneUpdated : Tables ℕ := { twoStarted with
    columns := update twoStarted.columns 0 UpdateState.oneUpdated
    entries := [.updateTuple 0 0 1] }

theorem change_oneUpdated : Change .stable (fun _ => UpdateState.fives) ⟨transactionIdStart + 1, 3⟩ twoStarted oneUpdated :=
  .update twoStarted 0 (.single 7) 0 ⟨UpdateState.oneUpdated.segment, none, some (0, 1)⟩
    (UpdateVector.single_inVector 7) UpdateState.twoStarted_update

theorem mayCommit_oneUpdated : oneUpdated.transactions.MayCommit ⟨transactionIdStart + 1, 3⟩ :=
  ⟨mem_cons_self, rfl, by decide⟩

/-- The log cannot be flushed. -/
theorem commitTransaction_undone_oneUpdated : ∃ x seen,
    (TableStorage.undoHandlers (fun _ => ⟨true, "t", ""⟩) ⟨transactionIdStart + 1, 3⟩ 4).observed.commitTransaction
      [[(40, .updateTuple 0 0 1)]] none (some "Could not write file") (oneUpdated.storage, [oneUpdated.storage]) =
        some ((x, seen), some "Could not write file") ∧
      ((x.segments 0).chains 0).updates = [] := by
  obtain ⟨x, seen, error, heq, -, hres⟩ := commitTransaction_undone twoStarted_begin
    (.step (.start rfl) (.own _ _ change_oneUpdated)) mayCommit_oneUpdated (fun _ => ⟨true, "t", ""⟩) none
    (some "Could not write file") [[(40, .updateTuple 0 0 1)]] rfl
  obtain rfl : some "Could not write file" = error := congrArg Prod.snd (some.inj heq)
  obtain ⟨-, hupds, -⟩ := hres (some_ne_none _)
  exact ⟨x, seen, heq, (hupds 0 0).1.trans rfl⟩

/-- The root of the vector stays. -/
theorem rollbackUpdate_root : ∃ x seen,
    twoStarted.Begin .stable (fun _ => UpdateState.fives) ⟨transactionIdStart + 1, 3⟩ ∧
      Reachable (· = twoStarted) (Change .stable (fun _ => UpdateState.fives) ⟨transactionIdStart + 1, 3⟩) oneUpdated ∧
      oneUpdated.transactions.MayCommit ⟨transactionIdStart + 1, 3⟩ ∧
      (TableStorage.undoHandlers (fun _ => ⟨true, "t", ""⟩) ⟨transactionIdStart + 1, 3⟩ 4).observed.commitTransaction
        [[(40, .updateTuple 0 0 1)]] none (some "Could not write file") (oneUpdated.storage, [oneUpdated.storage]) =
          some ((x, seen), some "Could not write file") ∧
      ((twoStarted.columns 0).segment.chains 0).root = none ∧ ((x.segments 0).chains 0).root = some 0 :=
  ⟨_, _, twoStarted_begin, .step (.start rfl) change_oneUpdated, mayCommit_oneUpdated, rfl, rfl, rfl⟩

end Tables

end WfOpt

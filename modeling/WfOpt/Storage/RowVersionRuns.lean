import WfOpt.Lib.Transition
import WfOpt.Storage.RowVersionManager

/-!
# Rows and transactions

The rows of a row group are inserted and deleted by transactions (`RowGroupState.Next`). Every active transaction
sees the rows that it sees in a store with two ids for each row, without any version information
(`rowVersions_refine`).

What the manager has for a row is the ids of the store, or 0 for the insertion if all transactions see it
(`Inv.insertId`). Vectors are compressed only if this holds for all of their rows, which depends on two facts: the
ids of commits are not start times, and the rows of a vector are inserted in the order of the commit ids.
-/

namespace WfOpt

open Option List

/-! ## Runs -/

/-- A row group and its transactions. An append is of the rows from its start on, until it is committed or reverted.
    No rows are appended to a row group read from disk. -/
structure RowGroupState where
  transactions : TransactionManager
  versions : RowVersionManager
  requiresNewRowGroup : Bool
  count : ℕ
  insertId : ℕ → ℕ
  deleteId : ℕ → ℕ
  appending : Option (TransactionData × ℕ)

namespace RowGroupState

/-- At the start there are rows which everyone sees, or the row group has been read from disk. -/
structure Init (s : RowGroupState) : Prop where
  transactions : s.transactions = .new
  versions : s.versions = .new ∨ s.versions.Loaded s.count ∧ s.requiresNewRowGroup = true
  insertId : ∀ r, s.insertId r = 0
  deleteId : ∀ r, s.deleteId r = s.versions.deleteId r
  appending : s.appending = none

variable (s : RowGroupState)

/-- The rows that are not being appended. -/
def committedCount : ℕ := match s.appending with
  | none => s.count
  | some (_, b) => b

/-- The ids of rows of a vector are replaced. -/
def markRows (ids : ℕ → ℕ) (v : ℕ) (rows : ℕ → ℕ) (n id : ℕ) : ℕ → ℕ := fun r =>
  if r ∈ (range n).map fun i => v * standardVectorSize + rows i then id else ids r

/-- Some rows of a vector. -/
structure Rows (v : ℕ) (rows : ℕ → ℕ) (n : ℕ) : Prop where
  pos : 0 < n
  row_lt : ∀ i < n, rows i < standardVectorSize
  lt_count : ∀ i < n, v * standardVectorSize + rows i < s.count

/-- The steps of transactions. Each append ends before the next one starts. As undo buffers are rolled back in reverse
    order, none of the rows is deleted when an append is reverted. -/
inductive Next : RowGroupState → RowGroupState → Prop
  | start (s : RowGroupState) (t : TransactionData) (m : TransactionManager)
    (h : s.transactions.startTransaction = some (t, m)) :
    Next s { s with transactions := m }
  | startCommit (s : RowGroupState) (t : TransactionData) (h : s.transactions.MayCommit t) :
    Next s { s with transactions := s.transactions.startCommit t }
  | finish (s : RowGroupState) (t : TransactionData) (h : t ∈ s.transactions.active)
    (hdone : ∀ b, s.appending ≠ some (t, b)) :
    Next s { s with transactions := s.transactions.removeTransaction t }
  | append (s : RowGroupState) (t : TransactionData) (n : ℕ) (m : RowVersionManager)
    (ht : t ∈ s.transactions.active) (hnew : s.requiresNewRowGroup = false)
    (hnone : s.appending = none) (hn : 0 < n)
    (h : s.versions.appendVersionInfo t s.count (s.count + n) = some m) :
    Next s { s with
      versions := m
      count := s.count + n
      insertId := ChunkVectorInfo.fill s.insertId s.count (s.count + n) t.transactionId
      deleteId := ChunkVectorInfo.fill s.deleteId s.count (s.count + n) notDeletedId
      appending := some (t, s.count) }
  | commitAppend (s : RowGroupState) (t : TransactionData) (b c : ℕ) (m : RowVersionManager)
    (happend : s.appending = some (t, b))
    (hcommit : s.transactions.committing = some (t, c))
    (h : s.versions.commitAppend c b (s.count - b) = some m) :
    Next s { s with
      versions := m
      insertId := ChunkVectorInfo.fill s.insertId b s.count c
      appending := none }
  | revertAppend (s : RowGroupState) (t : TransactionData) (b : ℕ)
    (happend : s.appending = some (t, b))
    (hundeleted : ∀ r, b ≤ r → r < s.count → s.deleteId r = notDeletedId) :
    Next s { s with versions := s.versions.revertAppend b, count := b, appending := none }
  | cleanupAppend (s : RowGroupState) (lowest b n : ℕ) (m : RowVersionManager)
    (hlowest : ∀ t ∈ s.transactions.active, lowest ≤ t.startTime)
    (h : s.versions.cleanupAppend lowest b n = some m) : Next s { s with versions := m }
  | delete (s : RowGroupState) (t : TransactionData) (v : ℕ) (rows : ℕ → ℕ) (n : ℕ)
    (ht : t ∈ s.transactions.active) (hrows : s.Rows v rows n)
    (hsees : ∀ i < n, t.sees (s.insertId (v * standardVectorSize + rows i))
      (s.deleteId (v * standardVectorSize + rows i)) = true) :
    Next s { s with
      versions := (s.versions.deleteRows v t.transactionId rows n).1
      deleteId := match (s.versions.deleteRows v t.transactionId rows n).2 with
        | none => s.deleteId
        | some (rows', n') => markRows s.deleteId v rows' n' t.transactionId }
  | commitDelete (s : RowGroupState) (t : TransactionData) (v : ℕ) (rows : ℕ → ℕ) (n id : ℕ)
    (m : RowVersionManager) (ht : t ∈ s.transactions.active) (hrows : s.Rows v rows n)
    (hdeleted : ∀ i < n, s.deleteId (v * standardVectorSize + rows i) = t.transactionId)
    (hid : s.transactions.committing = some (t, id) ∨ id = notDeletedId)
    (h : s.versions.commitDelete id (pushDelete v rows n) = some m) :
    Next s { s with versions := m, deleteId := markRows s.deleteId v rows n id }

/-! ## The invariant -/

/-- What the manager has for the rows of the store. -/
structure Inv : Prop where
  transactions : s.transactions.Valid
  appending : ∀ t b, s.appending = some (t, b) → t ∈ s.transactions.active ∧ b < s.count ∧
    ∀ r, b ≤ r → r < s.count → s.insertId r = t.transactionId
  appendable : ∀ t b, s.appending = some (t, b) → s.requiresNewRowGroup = false
  committed : ∀ r < s.committedCount, s.transactions.Committed (s.insertId r)
  committing : ∀ t c, s.transactions.committing = some (t, c) →
    ∀ r < s.committedCount, s.insertId r ≤ c
  insertId : ∀ r < s.count, s.versions.insertId r = s.insertId r ∨
    (s.versions.insertId r = 0 ∧ s.transactions.Settled (s.insertId r))
  deleteId : ∀ r, s.versions.deleteId r = s.deleteId r
  beyond : s.requiresNewRowGroup = false → ∀ r, s.count ≤ r → s.deleteId r = notDeletedId
  empty : ∀ v, s.count ≤ v * standardVectorSize → s.versions.vectorInfo v = none
  constant : ∀ v i d, s.versions.vectorInfo v = some (.constant i d) →
    (s.requiresNewRowGroup = true ∧ d = 0) ∨ d = notDeletedId ∧
      (v + 1) * standardVectorSize ≤ s.count ∧
        ∀ t b, s.appending = some (t, b) →
          b ≤ v * standardVectorSize ∨ (v + 1) * standardVectorSize ≤ b
  array : ∀ v info ids, s.versions.vectorInfo v = some (.vector info) → info.inserted = some ids →
    v * standardVectorSize < s.committedCount ∧ ids 0 ≤ ids 1

variable {s}

theorem Init.inv (h : s.Init) : s.Inv := by
  have hvld : s.transactions.Valid := h.transactions ▸ TransactionManager.new_valid
  have hinf : ∀ v info, s.versions.vectorInfo v = some info →
      s.versions.Loaded s.count ∧ s.requiresNewRowGroup = true := fun v info hinf =>
    h.versions.resolve_left fun hnew => absurd hinf (by rw [hnew]; simp [RowVersionManager.new])
  refine
    { transactions := hvld
      appending := fun _ _ happend => absurd happend (by simp [h.appending])
      appendable := fun _ _ happend => absurd happend (by simp [h.appending])
      committed := fun r _ => h.insertId r ▸ hvld.settled_zero.committed
      committing := fun _ _ hcommit => absurd hcommit (by simp [h.transactions, TransactionManager.new])
      insertId := fun r _ => .inl ?_
      deleteId := fun r => (h.deleteId r).symm
      beyond := fun hnew r _ => ?_
      empty := fun v hv => ?_
      constant := fun v i d hconst => .inl ?_
      array := fun v info ids hvec hids => ?_ }
  · rw [h.insertId]
    rcases h.versions with hvers | ⟨hload, -⟩
    · rw [hvers]
      rfl
    · exact hload.insertId_eq r
  · rcases h.versions with hvers | ⟨-, hload⟩
    · rw [h.deleteId, hvers]
      rfl
    · exact absurd (hnew.symm.trans hload) Bool.false_ne_true
  · by_contra hne
    obtain ⟨info, hsome⟩ := ne_none_iff_exists'.1 hne
    exact absurd ((hinf v info hsome).1.lt_count v info hsome) (not_lt.2 hv)
  · obtain ⟨hload, hnew⟩ := hinf _ _ hconst
    rcases hload.info_cases _ _ hconst with heq | ⟨deleted, heq, -⟩
    · exact ⟨hnew, (ChunkInfo.constant.inj heq).2⟩
    · exact absurd heq (by simp)
  · rcases (hinf _ _ hvec).1.info_cases _ _ hvec with heq | ⟨deleted, heq, -⟩
    · exact absurd heq (by simp)
    · obtain rfl := ChunkInfo.vector.inj heq
      exact absurd hids (by simp)

theorem committedCount_of_appending {t : TransactionData} {b : ℕ} (h : s.appending = some (t, b)) :
    s.committedCount = b := by
  rw [committedCount, h]

theorem committedCount_of_none (h : s.appending = none) : s.committedCount = s.count := by
  rw [committedCount, h]

namespace Inv

variable (h : s.Inv)
include h

theorem committedCount_le : s.committedCount ≤ s.count := by
  cases happend : s.appending with
  | none => exact (committedCount_of_none happend).le
  | some p => exact (committedCount_of_appending happend).le.trans (h.appending p.1 p.2 happend).2.1.le

variable {t : TransactionData}

/-- The manager has the id of a row that is being appended. -/
theorem insertId_appending {b r : ℕ} (happend : s.appending = some (t, b))
    (hb : b ≤ r) (hr : r < s.count) : s.versions.insertId r = t.transactionId := by
  obtain ⟨ht, -, hid⟩ := h.appending t b happend
  rcases h.insertId r hr with heq | ⟨-, hsett⟩
  · rw [heq, hid r hb hr]
  · rw [hid r hb hr] at hsett
    exact absurd (hsett.committed.lt_transactionId h.transactions ht) (lt_irrefl _)

/-- The manager has a committed id, or 0, for a row that is not being appended. -/
theorem insertId_committed {r : ℕ} (hr : r < s.committedCount) :
    s.versions.insertId r ≤ s.insertId r ∧ s.transactions.Committed (s.versions.insertId r) := by
  rcases h.insertId r (hr.trans_le h.committedCount_le) with heq | ⟨heq, -⟩
  · exact ⟨heq.le, heq ▸ h.committed r hr⟩
  · exact ⟨heq ▸ Nat.zero_le _, heq ▸ h.transactions.settled_zero.committed⟩

/-- A transaction sees the rows that it sees in the store. -/
theorem sees_eq (ht : t ∈ s.transactions.active) {r : ℕ} (hr : r < s.count) :
    t.sees (s.versions.insertId r) (s.versions.deleteId r) = t.sees (s.insertId r) (s.deleteId r) := by
  rw [h.deleteId r, TransactionData.sees, TransactionData.sees]
  rcases h.insertId r hr with heq | ⟨heq, hsett⟩
  · rw [heq]
  · rw [heq, hsett.useInsertedVersion ht, h.transactions.settled_zero.useInsertedVersion ht]

theorem constant_appendable (hnew : s.requiresNewRowGroup = false) {v i d : ℕ}
    (hinf : s.versions.vectorInfo v = some (.constant i d)) : d = notDeletedId ∧
      (v + 1) * standardVectorSize ≤ s.count ∧ ∀ t b, s.appending = some (t, b) →
        b ≤ v * standardVectorSize ∨ (v + 1) * standardVectorSize ≤ b :=
  (h.constant v i d hinf).resolve_left fun hload =>
    absurd (hnew.symm.trans hload.1) Bool.false_ne_true

/-! ## Transactions -/

theorem start {m : TransactionManager} (hst : s.transactions.startTransaction = some (t, m)) :
    Inv { s with transactions := m } := by
  have hact : ∀ u ∈ s.transactions.active, u ∈ m.active := by
    obtain ⟨-, -, rfl⟩ := TransactionManager.startTransaction_eq hst
    exact fun u hu => mem_cons_of_mem _ hu
  have hcomg : m.committing = s.transactions.committing := by
    obtain ⟨-, -, rfl⟩ := TransactionManager.startTransaction_eq hst
    rfl
  exact
    { transactions := h.transactions.start hst
      appending := fun u b hu => ⟨hact u (h.appending u b hu).1, (h.appending u b hu).2⟩
      appendable := h.appendable
      committed := fun r hr => (h.committed r hr).start hst
      committing := fun u c hc => h.committing u c (hcomg ▸ hc)
      insertId := fun r hr => (h.insertId r hr).imp_right fun hid => ⟨hid.1, hid.2.start hst⟩
      deleteId := h.deleteId
      beyond := h.beyond
      empty := h.empty
      constant := h.constant
      array := h.array }

theorem startCommit (hcommit : s.transactions.MayCommit t) :
    Inv { s with transactions := s.transactions.startCommit t } where
  transactions := h.transactions.startCommit hcommit
  appending := h.appending
  appendable := h.appendable
  committed r hr := (h.committed r hr).startCommit
  committing u c hc := by
    obtain ⟨rfl, rfl⟩ := Prod.mk.inj (some_inj.1 hc)
    exact fun r hr => (h.committed r hr).lt.le
  insertId r hr := (h.insertId r hr).imp_right fun hid => ⟨hid.1, hid.2.startCommit⟩
  deleteId := h.deleteId
  beyond := h.beyond
  empty := h.empty
  constant := h.constant
  array := h.array

theorem finish (hdone : ∀ b, s.appending ≠ some (t, b)) :
    Inv { s with transactions := s.transactions.removeTransaction t } where
  transactions := h.transactions.remove
  appending u b hu := by
    refine ⟨(TransactionManager.mem_removeTransaction h.transactions).2
      ⟨?_, (h.appending u b hu).1⟩, (h.appending u b hu).2⟩
    rintro rfl
    exact hdone b hu
  appendable := h.appendable
  committed r hr := (h.committed r hr).remove
  committing u c hc := by
    refine h.committing u c ?_
    rw [TransactionManager.removeTransaction] at hc
    by_cases ht : s.transactions.committing.map Prod.fst = some t
    · rw [if_pos ht] at hc
      exact absurd hc (by simp)
    · rwa [if_neg ht] at hc
  insertId r hr := (h.insertId r hr).imp_right fun hid => ⟨hid.1, hid.2.remove⟩
  deleteId := h.deleteId
  beyond := h.beyond
  empty := h.empty
  constant := h.constant
  array := h.array

/-! ## Appends -/

theorem first_le (v : ℕ) : RowVersionManager.vectorInsertId (s.versions.vectorInfo v) 0 ≤
    RowVersionManager.vectorInsertId (s.versions.vectorInfo v) 1 := by
  cases hinf : s.versions.vectorInfo v with
  | none => exact le_rfl
  | some info =>
    cases info with
    | constant i d => exact le_rfl
    | vector info =>
      change info.initializedInserted 0 ≤ info.initializedInserted 1
      rw [ChunkVectorInfo.initializedInserted]
      cases hids : info.inserted with
      | none => exact le_rfl
      | some ids => exact (h.array v info ids hinf hids).2

theorem first_committed {v : ℕ} (hv : v * standardVectorSize < s.committedCount) :
    RowVersionManager.vectorInsertId (s.versions.vectorInfo v) 0 ≤ s.insertId (v * standardVectorSize) ∧
      s.transactions.Committed (RowVersionManager.vectorInsertId (s.versions.vectorInfo v) 0) := by
  have hid := RowVersionManager.insertId_eq (m := s.versions) (v := v) (i := 0) (by decide)
  rw [Nat.add_zero] at hid
  rw [← hid]
  exact h.insertId_committed hv

/-- If the first row keeps its id, it is not inserted after the second one. -/
theorem fill_first_le {v b e id : ℕ} (hb : b ≠ 0)
    (hid : RowVersionManager.vectorInsertId (s.versions.vectorInfo v) 0 ≤ id) :
    ChunkVectorInfo.fill (RowVersionManager.vectorInsertId (s.versions.vectorInfo v)) b e id 0 ≤
      ChunkVectorInfo.fill (RowVersionManager.vectorInsertId (s.versions.vectorInfo v)) b e id 1 := by
  rw [ChunkVectorInfo.fill, ChunkVectorInfo.fill, if_neg fun hle => hb (Nat.le_zero.1 hle.1)]
  by_cases hle : b ≤ 1 ∧ 1 < e
  · rwa [if_pos hle]
  · rw [if_neg hle]
    exact h.first_le v

theorem append_spec {n : ℕ} (hnew : s.requiresNewRowGroup = false) (hn : 0 < n) :
    ∃ m, s.versions.appendVersionInfo t s.count (s.count + n) = some m ∧ ∀ v,
      (v ∉ RowVersionManager.vectorIndexes s.count (s.count + n) ∧ m.vectorInfo v = s.versions.vectorInfo v) ∨
      v ∈ RowVersionManager.vectorIndexes s.count (s.count + n) ∧
      let b := RowVersionManager.vectorStart s.count v
      let e := RowVersionManager.vectorEnd (s.count + n) v
      ∃ info, m.vectorInfo v = some info ∧ (∀ i < e, info.insertId i =
          if b ≤ i then t.transactionId else RowVersionManager.vectorInsertId (s.versions.vectorInfo v) i) ∧
        (∀ i, info.deleteId i = RowVersionManager.vectorDeleteId (s.versions.vectorInfo v) i) ∧
        (∀ i d, info = .constant i d → d = notDeletedId ∧ b = 0 ∧ e = standardVectorSize) ∧
        ∀ i ids, info = .vector i → i.inserted = some ids → b ≠ 0 ∧ ids = ChunkVectorInfo.fill
          (RowVersionManager.vectorInsertId (s.versions.vectorInfo v)) b e t.transactionId := by
  have hlt : s.count < s.count + n := Nat.lt_add_of_pos_right hn
  have hvec : ∀ v ∈ RowVersionManager.vectorIndexes s.count (s.count + n),
      (RowVersionManager.vectorStart s.count v = 0 → s.versions.vectorInfo v = none) ∧
        ∀ i d, s.versions.vectorInfo v ≠ some (.constant i d) := by
    intro v hv
    refine ⟨fun hst => h.empty v ((RowVersionManager.vectorStart_eq_zero_iff hv).1 hst), fun i d hinf => ?_⟩
    exact absurd (RowVersionManager.lt_of_mem_vectorIndexes hlt hv).1
      (not_lt.2 (h.constant_appendable hnew hinf).2.1)
  have hspec := fun v hv => RowVersionManager.appendVector_spec t.transactionId
    (RowVersionManager.vectorEnd (s.count + n) v) (hvec v hv).1 (hvec v hv).2
  obtain ⟨m, heq, hm⟩ := RowVersionManager.forVectors_spec (m := s.versions.change)
    (f := RowVersionManager.appendVector t.transactionId) (b := s.count) (e := s.count + n) fun v hv => by
      obtain ⟨info, hinf, -⟩ := hspec v hv
      rw [RowVersionManager.change_vectorInfo, hinf]
      rfl
  refine ⟨m, heq, fun v => ?_⟩
  have hmv := hm v
  rw [RowVersionManager.change_vectorInfo] at hmv
  by_cases hv : v ∈ RowVersionManager.vectorIndexes s.count (s.count + n)
  · rw [if_pos hv] at hmv
    obtain ⟨info, hinf, hprops⟩ := hspec v hv
    rw [hinf] at hmv
    exact .inr ⟨hv, info, (some_inj.1 hmv).symm, hprops⟩
  · rw [if_neg hv] at hmv
    exact .inl ⟨hv, hmv⟩

variable {m : RowVersionManager}

theorem append {n : ℕ}
    (ht : t ∈ s.transactions.active) (hnew : s.requiresNewRowGroup = false) (hnone : s.appending = none) (hn : 0 < n)
    (happend : s.versions.appendVersionInfo t s.count (s.count + n) = some m) :
    Inv { s with
      versions := m
      count := s.count + n
      insertId := ChunkVectorInfo.fill s.insertId s.count (s.count + n) t.transactionId
      deleteId := ChunkVectorInfo.fill s.deleteId s.count (s.count + n) notDeletedId
      appending := some (t, s.count) } := by
  obtain ⟨m', heq, hm⟩ := h.append_spec (t := t) hnew hn
  rw [happend] at heq
  obtain rfl := some_inj.1 heq
  have hlt : s.count < s.count + n := Nat.lt_add_of_pos_right hn
  have hcnt := committedCount_of_none hnone
  have hbef : ∀ r < s.count, ChunkVectorInfo.fill s.insertId s.count (s.count + n) t.transactionId r =
      s.insertId r := fun r hr => if_neg fun hr' => absurd hr'.1 (not_le.2 hr)
  have hdel : ∀ r, ChunkVectorInfo.fill s.deleteId s.count (s.count + n) notDeletedId r =
      s.deleteId r := by
    intro r
    rw [ChunkVectorInfo.fill]
    by_cases hr : s.count ≤ r ∧ r < s.count + n
    · rw [if_pos hr, h.beyond hnew r hr.1]
    · rw [if_neg hr]
  refine
    { transactions := h.transactions
      appending := fun u b hu => ?_
      appendable := fun _ _ _ => hnew
      committed := fun r hr => ?_
      committing := fun u c hc r hr => ?_
      insertId := fun r hr => ?_
      deleteId := fun r => ?_
      beyond := fun _ r hr => ?_
      empty := fun v hv => ?_
      constant := fun v i d hinf => .inr ?_
      array := fun v info ids hinf hids => ?_ }
  · obtain ⟨rfl, rfl⟩ := Prod.mk.inj (some_inj.1 hu)
    exact ⟨ht, hlt, fun r hb he => if_pos ⟨hb, he⟩⟩
  · dsimp only
    rw [hbef r hr]
    exact h.committed r (hcnt ▸ hr)
  · dsimp only
    rw [hbef r hr]
    exact h.committing u c hc r (hcnt ▸ hr)
  · dsimp only
    rcases hm (r / standardVectorSize) with ⟨hv, hinf⟩ | ⟨hv, info, hinf, hins, -⟩
    · have hrow : r < s.count :=
        not_le.1 fun hle => hv (RowVersionManager.mem_of_row hle hr)
      rw [hbef r hrow, RowVersionManager.insertId, hinf]
      exact h.insertId r hrow
    · have hid := hins _ ((RowVersionManager.lt_vectorEnd_iff hv).2 hr)
      rw [RowVersionManager.insertId, hinf]
      change info.insertId (r % standardVectorSize) = _ ∨ info.insertId (r % standardVectorSize) = _ ∧ _
      by_cases hrow : s.count ≤ r
      · rw [hid, if_pos ((RowVersionManager.vectorStart_le_iff hv).2 hrow)]
        exact .inl (if_pos ⟨hrow, hr⟩).symm
      · rw [hid, if_neg fun hle => hrow ((RowVersionManager.vectorStart_le_iff hv).1 hle),
          hbef r (not_le.1 hrow)]
        exact h.insertId r (not_le.1 hrow)
  · dsimp only
    rw [hdel r, ← h.deleteId r, RowVersionManager.deleteId, RowVersionManager.deleteId]
    rcases hm (r / standardVectorSize) with ⟨-, hinf⟩ | ⟨-, info, hinf, -, hid, -⟩
    · rw [hinf]
    · rw [hinf]
      exact hid _
  · exact (hdel r).trans (h.beyond hnew r (Nat.le_of_add_right_le hr))
  · rcases hm v with ⟨-, hinf⟩ | ⟨hmem, -⟩
    · rw [hinf]
      exact h.empty v (Nat.le_of_add_right_le hv)
    · exact absurd (RowVersionManager.lt_of_mem_vectorIndexes hlt hmem).2 (not_lt.2 hv)
  · rcases hm v with ⟨hmem, hinf'⟩ | ⟨hmem, info, hinf', -, -, hconst, -⟩
    · rw [hinf'] at hinf
      obtain ⟨hd, hle, -⟩ := h.constant_appendable hnew hinf
      refine ⟨hd, hle.trans (Nat.le_add_right _ _), fun u b hu => .inr ?_⟩
      obtain ⟨-, rfl⟩ := Prod.mk.inj (some_inj.1 hu)
      exact hle
    · rw [hinf'] at hinf
      obtain ⟨hd, hfull⟩ := hconst i d (some_inj.1 hinf)
      rw [RowVersionManager.vector_full_iff hlt hmem] at hfull
      refine ⟨hd, hfull.2, fun u b hu => .inl ?_⟩
      obtain ⟨-, rfl⟩ := Prod.mk.inj (some_inj.1 hu)
      exact hfull.1
  · rcases hm v with ⟨hmem, hinf'⟩ | ⟨hmem, info', hinf', -, -, -, harray⟩
    · rw [hinf'] at hinf
      obtain ⟨hv, hle⟩ := h.array v info ids hinf hids
      exact ⟨hcnt ▸ hv, hle⟩
    · rw [hinf'] at hinf
      obtain ⟨hst, rfl⟩ := harray info ids (some_inj.1 hinf) hids
      have hrow : v * standardVectorSize < s.count :=
        not_le.1 fun hle => hst ((RowVersionManager.vectorStart_eq_zero_iff hmem).2 hle)
      have hfst := h.first_committed (hcnt.symm ▸ hrow)
      exact ⟨hrow, h.fill_first_le hst (hfst.2.lt_transactionId h.transactions ht).le⟩

theorem commitAppend_spec {b : ℕ} (happend : s.appending = some (t, b)) (c : ℕ) :
    ∃ m, s.versions.commitAppend c b (s.count - b) = some m ∧ ∀ v,
      (v ∉ RowVersionManager.vectorIndexes b s.count ∧ m.vectorInfo v = s.versions.vectorInfo v) ∨
      v ∈ RowVersionManager.vectorIndexes b s.count ∧ ∃ info, s.versions.vectorInfo v = some info ∧
          m.vectorInfo v = some (info.commitAppend c (RowVersionManager.vectorStart b v)
            (RowVersionManager.vectorEnd s.count v)) := by
  obtain ⟨ht, hlt, hrows⟩ := h.appending t b happend
  have hinf : ∀ v ∈ RowVersionManager.vectorIndexes b s.count, ∃ info, s.versions.vectorInfo v = some info := by
    intro v hv
    obtain ⟨r, hb, he, rfl⟩ := RowVersionManager.exists_row_of_mem hlt hv
    have hid := h.insertId_appending happend hb he
    rw [RowVersionManager.insertId] at hid
    cases hinf : s.versions.vectorInfo (r / standardVectorSize) with
    | some info => exact ⟨info, rfl⟩
    | none =>
      rw [hinf] at hid
      exact absurd hid ((h.transactions.settled_zero.committed).lt_transactionId h.transactions ht).ne
  obtain ⟨m, heq, hm⟩ := RowVersionManager.forVectors_spec (m := s.versions) (b := b) (e := s.count)
    (f := fun vectorStart vectorEnd info =>
      info.map fun info => some (info.commitAppend c vectorStart vectorEnd)) fun v hv => by
      obtain ⟨info, hinf⟩ := hinf v hv
      rw [hinf]
      rfl
  refine ⟨m, ?_, fun v => ?_⟩
  · rw [RowVersionManager.commitAppend, if_neg (Nat.sub_pos_of_lt hlt).ne', Nat.add_sub_cancel' hlt.le]
    exact heq
  · have hmv := hm v
    by_cases hv : v ∈ RowVersionManager.vectorIndexes b s.count
    · rw [if_pos hv] at hmv
      obtain ⟨info, hinf⟩ := hinf v hv
      rw [hinf] at hmv
      exact .inr ⟨hv, info, hinf, (some_inj.1 hmv).symm⟩
    · rw [if_neg hv] at hmv
      exact .inl ⟨hv, hmv⟩

/-- If all rows of a vector have one id, none or all of them are being appended. -/
theorem le_of_constant {b v id : ℕ} (happend : s.appending = some (t, b))
    (hv : v ∈ RowVersionManager.vectorIndexes b s.count)
    (hid : ∀ i, RowVersionManager.vectorInsertId (s.versions.vectorInfo v) i = id) :
    b ≤ v * standardVectorSize := by
  obtain ⟨ht, hlt, hrows⟩ := h.appending t b happend
  obtain ⟨r, hb, he, rfl⟩ := RowVersionManager.exists_row_of_mem hlt hv
  by_contra hrow
  have hcomd := (h.first_committed ((not_le.1 hrow).trans_eq (committedCount_of_appending happend).symm)).2
  have hr := h.insertId_appending happend hb he
  rw [RowVersionManager.insertId, hid, ← hid 0] at hr
  exact (hcomd.lt_transactionId h.transactions ht).ne hr

theorem commitAppend {b c : ℕ}
    (happend : s.appending = some (t, b)) (hcommit : s.transactions.committing = some (t, c))
    (heq : s.versions.commitAppend c b (s.count - b) = some m) :
    Inv { s with
      versions := m
      insertId := ChunkVectorInfo.fill s.insertId b s.count c
      appending := none } := by
  obtain ⟨m', heq', hm⟩ := h.commitAppend_spec happend c
  rw [heq] at heq'
  obtain rfl := some_inj.1 heq'
  obtain ⟨ht, hlt, hrows⟩ := h.appending t b happend
  have hcnt := committedCount_of_appending happend
  have hnew := h.appendable t b happend
  have hcomd := (h.transactions.committing t c hcommit).2
  have hbef : ∀ r < b, ChunkVectorInfo.fill s.insertId b s.count c r = s.insertId r :=
    fun r hr => if_neg fun hr' => absurd hr'.1 (not_le.2 hr)
  have hbhd : ∀ r, b ≤ r → r < s.count → ChunkVectorInfo.fill s.insertId b s.count c r = c :=
    fun r hb hr => if_pos ⟨hb, hr⟩
  refine
    { transactions := h.transactions
      appending := fun u b hu => absurd hu (by simp)
      appendable := fun u b hu => absurd hu (by simp)
      committed := fun r hr => ?_
      committing := fun u c' hc r hr => ?_
      insertId := fun r hr => ?_
      deleteId := fun r => ?_
      beyond := h.beyond
      empty := fun v hv => ?_
      constant := fun v i d hinf => .inr ?_
      array := fun v info ids hinf hids => ?_ }
  · dsimp only
    by_cases hb : b ≤ r
    · rwa [hbhd r hb hr]
    · rw [hbef r (not_le.1 hb)]
      exact h.committed r (hcnt.symm ▸ not_le.1 hb)
  · obtain ⟨rfl, rfl⟩ := Prod.mk.inj (some_inj.1 (hcommit.symm.trans hc))
    dsimp only
    by_cases hb : b ≤ r
    · rw [hbhd r hb hr]
    · rw [hbef r (not_le.1 hb)]
      exact h.committing t c hcommit r (hcnt.symm ▸ not_le.1 hb)
  · dsimp only
    rw [RowVersionManager.insertId]
    have hold := h.insertId r hr
    rw [RowVersionManager.insertId] at hold
    rcases hm (r / standardVectorSize) with ⟨hv, hinf⟩ | ⟨hv, info, hinf, hinf'⟩
    · rw [hinf, hbef r (not_le.1 fun hle => hv (RowVersionManager.mem_of_row hle hr))]
      exact hold
    · -- a constant is for all rows of the vector, which are all being appended
      have hconst : ∀ id, (∀ i, info.insertId i = id) → b ≤ r := fun id hid =>
        (h.le_of_constant happend hv fun i => by rw [hinf]; exact hid i).trans
          (Nat.div_mul_le_self r _)
      rw [hinf']
      cases info with
      | constant i d => exact .inl (hbhd r (hconst i fun _ => rfl) hr).symm
      | vector info =>
        obtain ⟨constantInsertId, inserted, deleted⟩ := info
        cases inserted with
        | none => exact .inl (hbhd r (hconst constantInsertId fun _ => rfl) hr).symm
        | some ids =>
          rw [hinf] at hold
          change ChunkVectorInfo.fill ids _ _ c _ = _ ∨ ChunkVectorInfo.fill ids _ _ c _ = 0 ∧ _
          have hfill : ChunkVectorInfo.fill ids (RowVersionManager.vectorStart b (r / standardVectorSize))
              (RowVersionManager.vectorEnd s.count (r / standardVectorSize)) c
              (r % standardVectorSize) = if b ≤ r then c else ids (r % standardVectorSize) := by
            refine if_congr ?_ rfl rfl
            rw [RowVersionManager.vectorStart_le_iff hv, RowVersionManager.lt_vectorEnd_iff hv]
            exact and_iff_left hr
          rw [hfill]
          by_cases hb : b ≤ r
          · rw [if_pos hb]
            exact .inl (hbhd r hb hr).symm
          · rw [if_neg hb, hbef r (not_le.1 hb)]
            exact hold
  · rw [← h.deleteId r, RowVersionManager.deleteId, RowVersionManager.deleteId]
    rcases hm (r / standardVectorSize) with ⟨-, hinf⟩ | ⟨-, info, hinf, hinf'⟩
    · rw [hinf]
    · rw [hinf, hinf']
      cases info with
      | constant i d => rfl
      | vector info => exact congrFun (info.initializedDeleted_commitAppend c _ _) _
  · rcases hm v with ⟨-, hinf⟩ | ⟨hmem, -⟩
    · rw [hinf]
      exact h.empty v hv
    · exact absurd (RowVersionManager.lt_of_mem_vectorIndexes hlt hmem).2 (not_lt.2 hv)
  · refine ⟨?_, ?_, fun u b hu => absurd hu (by simp)⟩ <;>
      rcases hm v with ⟨-, hinf'⟩ | ⟨-, info, hinf', hinf''⟩
    · exact (h.constant_appendable hnew (hinf' ▸ hinf)).1
    · rw [hinf''] at hinf
      cases info with
      | constant i' d' =>
        obtain ⟨-, rfl⟩ := ChunkInfo.constant.inj (some_inj.1 hinf)
        exact (h.constant_appendable hnew hinf').1
      | vector info => exact absurd (some_inj.1 hinf) (by simp [ChunkInfo.commitAppend])
    · exact (h.constant_appendable hnew (hinf' ▸ hinf)).2.1
    · rw [hinf''] at hinf
      cases info with
      | constant i' d' => exact (h.constant_appendable hnew hinf').2.1
      | vector info => exact absurd (some_inj.1 hinf) (by simp [ChunkInfo.commitAppend])
  · rcases hm v with ⟨-, hinf'⟩ | ⟨hmem, info', hinf', hinf''⟩
    · obtain ⟨hv, hle⟩ := h.array v info ids (hinf' ▸ hinf) hids
      exact ⟨hv.trans_le h.committedCount_le, hle⟩
    · rw [hinf''] at hinf
      cases info' with
      | constant i' d' => exact absurd (some_inj.1 hinf) (by simp [ChunkInfo.commitAppend])
      | vector info' =>
        obtain rfl := ChunkInfo.vector.inj (some_inj.1 hinf)
        obtain ⟨constantInsertId, inserted, deleted⟩ := info'
        cases inserted with
        | none => exact absurd hids (by simp [ChunkVectorInfo.commitAppend])
        | some ids' =>
          obtain rfl := some_inj.1 hids
          obtain ⟨hv, -⟩ := h.array v _ ids' hinf' rfl
          have hst := (RowVersionManager.vectorStart_eq_zero_iff hmem).not.2
            (not_le.2 (hv.trans_eq hcnt))
          have hfst := (h.first_committed hv).1.trans (h.committing t c hcommit _ hv)
          have hle := h.fill_first_le (e := RowVersionManager.vectorEnd s.count v) hst hfst
          rw [hinf'] at hle
          exact ⟨hv.trans_le h.committedCount_le, hle⟩

theorem revertAppend {b : ℕ} (happend : s.appending = some (t, b))
    (hundeleted : ∀ r, b ≤ r → r < s.count → s.deleteId r = notDeletedId) :
    Inv { s with versions := s.versions.revertAppend b, count := b, appending := none } := by
  have hcnt := committedCount_of_appending happend
  have hnew := h.appendable t b happend
  have hinf := s.versions.revertAppend_vectorInfo b
  have hbeyond : ∀ r, b ≤ r → s.deleteId r = notDeletedId := by
    intro r hb
    by_cases hr : r < s.count
    · exact hundeleted r hb hr
    · exact h.beyond hnew r (not_lt.1 hr)
  have hkept : ∀ {v info}, (s.versions.revertAppend b).vectorInfo v = some info →
      v * standardVectorSize < b ∧ s.versions.vectorInfo v = some info := by
    intro v info hv
    rw [hinf] at hv
    by_cases hle : b ≤ v * standardVectorSize
    · rw [if_pos hle] at hv
      exact absurd hv (by simp)
    · rw [if_neg hle] at hv
      exact ⟨not_le.1 hle, hv⟩
  refine
    { transactions := h.transactions
      appending := fun u b hu => absurd hu (by simp)
      appendable := fun u b hu => absurd hu (by simp)
      committed := fun r hr => h.committed r (hcnt.symm ▸ hr)
      committing := fun u c hc r hr => h.committing u c hc r (hcnt.symm ▸ hr)
      insertId := fun r hr => ?_
      deleteId := fun r => ?_
      beyond := fun _ => hbeyond
      empty := fun v hv => (hinf v).trans (if_pos hv)
      constant := fun v i d hv => .inr ?_
      array := fun v info ids hv hids => ?_ }
  · rw [RowVersionManager.insertId, hinf,
      if_neg (not_le.2 ((Nat.div_mul_le_self r _).trans_lt hr))]
    exact h.insertId r (hr.trans (h.appending t b happend).2.1)
  · rw [RowVersionManager.deleteId, hinf]
    by_cases hle : b ≤ r / standardVectorSize * standardVectorSize
    · rw [if_pos hle]
      exact (hbeyond r (hle.trans (Nat.div_mul_le_self r _))).symm
    · rw [if_neg hle]
      exact h.deleteId r
  · -- a constant is not for rows before the append and for some of it
    obtain ⟨hlt, hv⟩ := hkept hv
    obtain ⟨hd, -, hside⟩ := h.constant_appendable hnew hv
    exact ⟨hd, (hside t b happend).resolve_left (not_le.2 hlt), fun u b hu => absurd hu (by simp)⟩
  · obtain ⟨hlt, hv⟩ := hkept hv
    exact ⟨hlt, (h.array v info ids hv hids).2⟩

theorem settled_of_le {lowest r : ℕ} (hlowest : ∀ t ∈ s.transactions.active, lowest ≤ t.startTime)
    (hr : r < s.count) (hle : s.versions.insertId r ≤ lowest) : s.transactions.Settled (s.insertId r) := by
  rcases h.insertId r hr with heq | ⟨-, hsett⟩
  · rw [heq] at hle
    by_cases hcomd : r < s.committedCount
    · exact (h.committed r hcomd).settled fun t ht => hle.trans (hlowest t ht)
    · cases happend : s.appending with
      | none => exact absurd hr (committedCount_of_none happend ▸ hcomd)
      | some p =>
        obtain ⟨t, b⟩ := p
        obtain ⟨ht, -, hid⟩ := h.appending t b happend
        rw [committedCount_of_appending happend, not_lt] at hcomd
        rw [hid r hcomd hr] at hle
        exact absurd (hle.trans (hlowest t ht))
          (not_le.2 (h.transactions.startTime_lt_transactionId ht ht))
  · exact hsett

theorem cleanupAppend {lowest b n : ℕ}
    (hlowest : ∀ t ∈ s.transactions.active, lowest ≤ t.startTime)
    (heq : s.versions.cleanupAppend lowest b n = some m) : Inv { s with versions := m } := by
  obtain ⟨m', heq', hm⟩ := s.versions.cleanupAppend_spec lowest b n
  rw [heq] at heq'
  obtain rfl := some_inj.1 heq'
  have hcleanup : ∀ {v info}, s.versions.vectorInfo v = some info → info.cleanup lowest = true →
      (∀ i, info.deleteId i = notDeletedId) ∧ ∀ i < standardVectorSize, info.insertId i ≤ lowest :=
    fun {v info} hinf hcleanup => RowVersionManager.cleanup_spec hcleanup fun i ids hi hids =>
      (h.array v i ids (hi ▸ hinf) hids).2
  refine
    { transactions := h.transactions
      appending := h.appending
      appendable := h.appendable
      committed := h.committed
      committing := h.committing
      insertId := fun r hr => ?_
      deleteId := fun r => ?_
      beyond := h.beyond
      empty := fun v hv => ?_
      constant := fun v i d hv => ?_
      array := fun v info ids hv hids => ?_ }
  · rw [RowVersionManager.insertId]
    rcases hm (r / standardVectorSize) with hinf | ⟨info, hinf, hclean, hnone⟩
    · rw [hinf]
      exact h.insertId r hr
    · rw [hnone]
      refine .inr ⟨rfl, h.settled_of_le hlowest hr ?_⟩
      rw [RowVersionManager.insertId, hinf]
      exact (hcleanup hinf hclean).2 _ (Nat.mod_lt r (by decide))
  · rw [← h.deleteId r, RowVersionManager.deleteId, RowVersionManager.deleteId]
    rcases hm (r / standardVectorSize) with hinf | ⟨info, hinf, hclean, hnone⟩
    · rw [hinf]
    · rw [hnone, hinf]
      exact ((hcleanup hinf hclean).1 _).symm
  · rcases hm v with hinf | ⟨-, -, -, hnone⟩
    · rw [hinf]
      exact h.empty v hv
    · exact hnone
  · rcases hm v with hinf | ⟨-, -, -, hnone⟩
    · exact h.constant v i d (hinf ▸ hv)
    · exact absurd (hnone.symm.trans hv) (by simp)
  · rcases hm v with hinf | ⟨-, -, -, hnone⟩
    · exact h.array v info ids (hinf ▸ hv) hids
    · exact absurd (hnone.symm.trans hv) (by simp)

/-! ## Deletions -/

/-- A vector whose rows are not all deleted, as they were read from disk, has no constant delete id. -/
theorem constant_of_ne {v i : ℕ} (hi : i < standardVectorSize) (hne : s.deleteId (v * standardVectorSize + i) ≠ 0) :
    ∀ i' d, s.versions.vectorInfo v = some (.constant i' d) → d = notDeletedId := by
  intro i' d hinf
  rcases h.constant v i' d hinf with ⟨-, rfl⟩ | ⟨hd, -⟩
  · rw [← h.deleteId, RowVersionManager.deleteId_eq hi, hinf] at hne
    exact absurd rfl hne
  · exact hd

variable {rows : ℕ → ℕ}

section

variable {v : ℕ} (hconst : ∀ i d, s.versions.vectorInfo v = some (.constant i d) → d = notDeletedId)

include hconst

theorem initializedDeleted_eq {i : ℕ} (hi : i < standardVectorSize) :
    (s.versions.getVectorInfo v).initializedDeleted i = s.deleteId (v * standardVectorSize + i) := by
  rw [(RowVersionManager.getVectorInfo_spec hconst).2, ← RowVersionManager.deleteId_eq hi, h.deleteId]

theorem setDeleted {deleted deleteId : ℕ → ℕ} (hv : v * standardVectorSize < s.count)
    (hrow : ∀ i < standardVectorSize, deleted i = deleteId (v * standardVectorSize + i))
    (hoth : ∀ r, r / standardVectorSize ≠ v → deleteId r = s.deleteId r)
    (hbeyond : s.requiresNewRowGroup = false → ∀ r, s.count ≤ r → deleteId r = notDeletedId) :
    Inv { s with
      versions := s.versions.change.set v
        (some (.vector { s.versions.getVectorInfo v with deleted := some deleted }))
      deleteId := deleteId } := by
  have hvec := fun w => s.versions.change.set_vectorInfo v w
  refine
    { transactions := h.transactions
      appending := h.appending
      appendable := h.appendable
      committed := h.committed
      committing := h.committing
      insertId := fun r hr => ?_
      deleteId := fun r => ?_
      beyond := hbeyond
      empty := fun w hw => ?_
      constant := fun w i d hw => ?_
      array := fun w info ids hw hids => ?_ }
  · have hid := h.insertId r hr
    rw [RowVersionManager.insertId] at hid ⊢
    rw [hvec]
    by_cases hrv : r / standardVectorSize = v
    · rw [if_pos hrv]
      rw [hrv, ← (RowVersionManager.getVectorInfo_spec hconst).1] at hid
      exact hid
    · rw [if_neg hrv]
      exact hid
  · dsimp only
    rw [RowVersionManager.deleteId, hvec]
    by_cases hrv : r / standardVectorSize = v
    · rw [if_pos hrv]
      refine (hrow _ (Nat.mod_lt r (by decide))).trans (congrArg deleteId ?_)
      rw [← hrv, Nat.mul_comm]
      exact Nat.div_add_mod r _
    · rw [if_neg hrv, hoth r hrv]
      exact h.deleteId r
  · rw [hvec, if_neg]
    · exact h.empty w hw
    · rintro rfl
      exact absurd hv (not_lt.2 hw)
  · rw [hvec] at hw
    by_cases hwv : w = v
    · rw [if_pos hwv] at hw
      exact absurd (some_inj.1 hw) (by simp)
    · rw [if_neg hwv] at hw
      exact h.constant w i d hw
  · rw [hvec] at hw
    by_cases hwv : w = v
    · -- the vector had the array before
      rw [if_pos hwv] at hw
      obtain rfl := ChunkInfo.vector.inj (some_inj.1 hw)
      rw [hwv]
      rw [RowVersionManager.getVectorInfo] at hids
      cases hinf : s.versions.vectorInfo v with
      | none => exact absurd hids (by rw [hinf]; simp [ChunkVectorInfo.new])
      | some info =>
        cases info with
        | constant i d => exact absurd hids (by rw [hinf]; simp [ChunkVectorInfo.new])
        | vector info =>
          rw [hinf] at hids
          exact h.array v info ids hinf hids
    · rw [if_neg hwv] at hw
      exact h.array w info ids hw hids

theorem mark {n id : ℕ} (hrows : s.Rows v rows n) :
    Inv { s with
      versions := s.versions.change.set v (some (.vector { s.versions.getVectorInfo v with
        deleted := some (ChunkVectorInfo.mark (s.versions.getVectorInfo v).initializedDeleted
          ((range n).map rows) id) }))
      deleteId := markRows s.deleteId v rows n id } := by
  have hv : v * standardVectorSize < s.count := (Nat.le_add_right _ _).trans_lt (hrows.lt_count 0 hrows.pos)
  refine h.setDeleted hconst hv (fun i hi => ?_) (fun r hr => ?_) fun hnew r hr => ?_
  · rw [ChunkVectorInfo.mark, markRows, h.initializedDeleted_eq hconst hi]
    refine if_congr ?_ rfl rfl
    rw [ChunkVectorInfo.mem_map_range, ChunkVectorInfo.mem_map_range]
    exact exists_congr fun k => and_congr_right fun _ => (Nat.add_right_inj).symm
  · refine if_neg fun hmem => hr ?_
    obtain ⟨k, hk, rfl⟩ := ChunkVectorInfo.mem_map_range.1 hmem
    rw [Nat.mul_comm, Nat.mul_add_div (by decide), Nat.div_eq_of_lt (hrows.row_lt k hk), Nat.add_zero]
  · refine (if_neg fun hmem => ?_).trans (h.beyond hnew r hr)
    obtain ⟨k, hk, rfl⟩ := ChunkVectorInfo.mem_map_range.1 hmem
    exact absurd (hrows.lt_count k hk) (not_lt.2 hr)

/-- At a conflict, the ids stay as they are. -/
theorem unmark {n : ℕ} (hrows : s.Rows v rows n) :
    Inv { s with versions := s.versions.change.set v (some (.vector { s.versions.getVectorInfo v with
        deleted := some (s.versions.getVectorInfo v).initializedDeleted })) } :=
  h.setDeleted hconst ((Nat.le_add_right _ _).trans_lt (hrows.lt_count 0 hrows.pos))
    (fun _ hi => h.initializedDeleted_eq hconst hi) (fun _ _ => rfl) h.beyond

end

section

variable {v n : ℕ} (ht : t ∈ s.transactions.active) (hrows : s.Rows v rows n)
  (hsees : ∀ i < n, t.sees (s.insertId (v * standardVectorSize + rows i)) (s.deleteId (v * standardVectorSize + rows i)) = true)

include ht hrows hsees

/-- What is visible to a transaction has not been deleted by itself, nor on disk. -/
theorem fresh_of_sees :
    (∀ i d, s.versions.vectorInfo v = some (.constant i d) → d = notDeletedId) ∧
      ∀ k < n, (s.versions.getVectorInfo v).initializedDeleted (rows k) ≠ t.transactionId := by
  have hconst := h.constant_of_ne (hrows.row_lt 0 hrows.pos) fun hz => by
    have hsees := (Bool.and_eq_true_iff.1 (hsees 0 hrows.pos)).2
    rw [hz, TransactionData.useDeletedVersion, h.transactions.settled_zero.useInsertedVersion ht] at hsees
    exact absurd hsees (by decide)
  refine ⟨hconst, fun k hk => ?_⟩
  rw [h.initializedDeleted_eq hconst (hrows.row_lt k hk)]
  intro heq
  have hk := (Bool.and_eq_true_iff.1 (hsees k hk)).2
  rw [heq, TransactionData.useDeletedVersion, TransactionData.useInsertedVersion,
    decide_eq_true (rfl : t.transactionId = t.transactionId), Bool.or_true] at hk
  exact absurd hk (by decide)

theorem delete :
    Inv { s with
      versions := (s.versions.deleteRows v t.transactionId rows n).1
      deleteId := match (s.versions.deleteRows v t.transactionId rows n).2 with
        | none => s.deleteId
        | some (rows', n') => markRows s.deleteId v rows' n' t.transactionId } := by
  obtain ⟨hconst, hfr⟩ := h.fresh_of_sees ht hrows hsees
  rw [RowVersionManager.deleteRows]
  rcases (s.versions.getVectorInfo v).delete_spec
    (h.transactions.transactionId_lt_notDeletedId ht).ne hfr with ⟨-, heq⟩ | ⟨-, rows', n', heq, hmem⟩
  · rw [heq]
    exact h.unmark hconst hrows
  · rw [heq]
    have hids : markRows s.deleteId v rows' n' t.transactionId = markRows s.deleteId v rows n t.transactionId := by
      funext r
      refine if_congr ?_ rfl rfl
      rw [ChunkVectorInfo.mem_map_range, ChunkVectorInfo.mem_map_range]
      constructor
      · rintro ⟨k, hk, rfl⟩
        obtain ⟨j, hj, hrow⟩ := ChunkVectorInfo.mem_map_range.1
          ((hmem (rows' k)).1 (ChunkVectorInfo.mem_map_range.2 ⟨k, hk, rfl⟩))
        exact ⟨j, hj, by rw [hrow]⟩
      · rintro ⟨k, hk, rfl⟩
        obtain ⟨j, hj, hrow⟩ := ChunkVectorInfo.mem_map_range.1
          ((hmem (rows k)).2 (ChunkVectorInfo.mem_map_range.2 ⟨k, hk, rfl⟩))
        exact ⟨j, hj, by rw [hrow]⟩
    dsimp only
    rw [hids]
    exact h.mark hconst hrows

end

theorem constant_of_deleted {v n : ℕ} (ht : t ∈ s.transactions.active) (hrows : s.Rows v rows n)
    (hdeleted : ∀ i < n, s.deleteId (v * standardVectorSize + rows i) = t.transactionId) :
    ∀ i d, s.versions.vectorInfo v = some (.constant i d) → d = notDeletedId :=
  h.constant_of_ne (hrows.row_lt 0 hrows.pos) ((hdeleted 0 hrows.pos).trans_ne
    (Nat.zero_lt_of_lt (h.transactions.startTime_lt_transactionId ht ht)).ne')

theorem commitDelete_of_ne {v n : ℕ} (hrows : s.Rows v rows n)
    (hz : s.deleteId (v * standardVectorSize + rows 0) ≠ 0)
    (hdeleted : s.deleteId (v * standardVectorSize + rows 0) ≠ notDeletedId) (id : ℕ) :
    s.versions.commitDelete id (pushDelete v rows n) =
      some (s.versions.change.set v (some (.vector { s.versions.getVectorInfo v with
        deleted := some (ChunkVectorInfo.mark (s.versions.getVectorInfo v).initializedDeleted
          ((range n).map rows) id) }))) := by
  rw [← h.deleteId, RowVersionManager.deleteId_eq (hrows.row_lt 0 hrows.pos)] at hdeleted
  obtain ⟨info, deleted, hinf, hids⟩ := RowVersionManager.deleted_of_ne
    (h.constant_of_ne (hrows.row_lt 0 hrows.pos) hz) hdeleted
  have hvec : s.versions.getVectorInfo v = info := by rw [RowVersionManager.getVectorInfo, hinf]
  have hinitialized : info.initializedDeleted = deleted := by
    rw [ChunkVectorInfo.initializedDeleted, hids]
    rfl
  change ((s.versions.getVectorInfo v).commitDelete id (pushDelete v rows n)).map _ = _
  rw [hvec, info.commitDelete_pushDelete hids, hinitialized]
  rfl

theorem commitDelete_eq {v n : ℕ} (ht : t ∈ s.transactions.active) (hrows : s.Rows v rows n)
    (hdeleted : ∀ i < n, s.deleteId (v * standardVectorSize + rows i) = t.transactionId) (id : ℕ) :
    s.versions.commitDelete id (pushDelete v rows n) =
      some (s.versions.change.set v (some (.vector { s.versions.getVectorInfo v with
        deleted := some (ChunkVectorInfo.mark (s.versions.getVectorInfo v).initializedDeleted
          ((range n).map rows) id) }))) := by
  have hid := hdeleted 0 hrows.pos
  have hz := Nat.zero_lt_of_lt (h.transactions.startTime_lt_transactionId ht ht)
  exact h.commitDelete_of_ne hrows (hid.trans_ne hz.ne')
    (hid.trans_ne (h.transactions.transactionId_lt_notDeletedId ht).ne) id

theorem commitDelete {v n id : ℕ} (ht : t ∈ s.transactions.active) (hrows : s.Rows v rows n)
    (hdeleted : ∀ i < n, s.deleteId (v * standardVectorSize + rows i) = t.transactionId)
    (heq : s.versions.commitDelete id (pushDelete v rows n) = some m) :
    Inv { s with versions := m, deleteId := markRows s.deleteId v rows n id } := by
  rw [h.commitDelete_eq ht hrows hdeleted] at heq
  obtain rfl := some_inj.1 heq
  exact h.mark (h.constant_of_deleted ht hrows hdeleted) hrows

/-! ## Runs -/

theorem next {s' : RowGroupState} (hnx : Next s s') : s'.Inv := by
  cases hnx with
  | start t m hst => exact h.start hst
  | startCommit t hcommit => exact h.startCommit hcommit
  | finish t ht hdone => exact h.finish hdone
  | append t n m ht hnew hnone hn heq => exact h.append ht hnew hnone hn heq
  | commitAppend t b c m happend hcommit heq => exact h.commitAppend happend hcommit heq
  | revertAppend t b happend hundeleted => exact h.revertAppend happend hundeleted
  | cleanupAppend lowest b n m hlowest heq => exact h.cleanupAppend hlowest heq
  | delete t v rows n ht hrows hsees => exact h.delete ht hrows hsees
  | commitDelete t v rows n id m ht hrows hdeleted hid heq => exact h.commitDelete ht hrows hdeleted heq

end Inv

theorem inv_of_reachable (h : Reachable Init Next s) : s.Inv :=
  h.invariant (fun _ => Init.inv) fun _ _ _ hinv hnx => hinv.next hnx

/-! The operations do not fail: appends never meet a constant, commits find the information of the
vectors, and information is removed only where nobody will ask for it. -/

theorem isSome_appendVersionInfo (h : Reachable Init Next s) (t : TransactionData) {n : ℕ}
    (hnew : s.requiresNewRowGroup = false) (hn : 0 < n) : (s.versions.appendVersionInfo t s.count (s.count + n)).isSome := by
  obtain ⟨m, heq, -⟩ := (inv_of_reachable h).append_spec (t := t) hnew hn
  exact isSome_iff_exists.2 ⟨m, heq⟩

end RowGroupState

end WfOpt

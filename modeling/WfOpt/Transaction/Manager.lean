import Mathlib

/-!
# The transaction manager

A transaction has an id and a start time (`DuckTransactionManager`). Start times and commit ids are drawn from a
counter, transaction ids from another one, which starts far above: what a transaction writes has its id until it is
committed. Commits are serialized by the transaction lock, from when the commit id is drawn until the transaction is
removed.
-/

namespace WfOpt

open Nat List

/-- `TRANSACTION_ID_START` -/
def transactionIdStart : ℕ := 4611686018427388000

/-- `NOT_DELETED_ID` -/
def notDeletedId : ℕ := 2 ^ 64 - 2

/-- `TransactionData` -/
structure TransactionData where
  transactionId : ℕ
  startTime : ℕ
  deriving DecidableEq, Repr

/-- `TransactionVersionOperator::UseInsertedVersion`: what has the id is visible. -/
def TransactionData.useInsertedVersion (t : TransactionData) (id : ℕ) : Bool :=
  id < t.startTime || id = t.transactionId

/-- `TransactionVersionOperator::UseDeletedVersion` -/
def TransactionData.useDeletedVersion (t : TransactionData) (id : ℕ) : Bool := !t.useInsertedVersion id

/-- `DuckTransactionManager`, with the transaction that holds the lock for its commit and its commit
    id. -/
structure TransactionManager where
  currentStartTimestamp : ℕ
  currentTransactionId : ℕ
  active : List TransactionData
  committing : Option (TransactionData × ℕ)

namespace TransactionManager

/-- The start timestamp starts at two. -/
def new : TransactionManager := ⟨2, transactionIdStart, [], none⟩

/-- `StartTransaction` -/
def startTransaction (m : TransactionManager) : Option (TransactionData × TransactionManager) :=
  if transactionIdStart ≤ m.currentStartTimestamp then none
  else
    let t : TransactionData := ⟨m.currentTransactionId, m.currentStartTimestamp⟩
    some (t, { m with
      currentStartTimestamp := m.currentStartTimestamp + 1
      currentTransactionId := m.currentTransactionId + 1
      active := t :: m.active })

/-- A transaction starts its commit (`GetCommitTimestamp`). -/
def startCommit (m : TransactionManager) (t : TransactionData) : TransactionManager := { m with
    currentStartTimestamp := m.currentStartTimestamp + 1
    committing := some (t, m.currentStartTimestamp) }

/-- `RemoveTransaction`, after which the lock is released. -/
def removeTransaction (m : TransactionManager) (t : TransactionData) : TransactionManager := { m with
    active := m.active.erase t
    committing := if m.committing.map Prod.fst = some t then none else m.committing }

/-- A commit has failed; its id is not used. -/
def abortCommit (m : TransactionManager) : TransactionManager := { m with committing := none }

/-- A commit may start: no other one has the lock, and timestamps stay below the transaction ids. -/
structure MayCommit (m : TransactionManager) (t : TransactionData) : Prop where
  active : t ∈ m.active
  free : m.committing = none
  timestamp : m.currentStartTimestamp < transactionIdStart

/-- Whoever has the id does not see what has it before it is committed; all transactions that start later do. -/
structure Committed (m : TransactionManager) (id : ℕ) : Prop where
  lt : id < m.currentStartTimestamp
  ne : ∀ t ∈ m.active, id ≠ t.startTime

/-- What has the id is visible to all transactions, now and from now on. -/
structure Settled (m : TransactionManager) (id : ℕ) : Prop where
  lt : id < m.currentStartTimestamp
  before : ∀ t ∈ m.active, id < t.startTime

/-- What has the id was written by a transaction that has started, or has not been deleted. -/
def Drawn (m : TransactionManager) (id : ℕ) : Prop :=
  id < m.currentStartTimestamp ∨ (transactionIdStart ≤ id ∧ id < m.currentTransactionId) ∨ id = notDeletedId

/-- The ids and times of the active transactions are distinct, and have been drawn. -/
structure Valid (m : TransactionManager) : Prop where
  timestamp : 2 ≤ m.currentStartTimestamp
  timestamp_le : m.currentStartTimestamp ≤ transactionIdStart
  le_transactionId : transactionIdStart ≤ m.currentTransactionId
  transactionId_le : m.currentTransactionId ≤ transactionIdStart + m.currentStartTimestamp
  startTime_lt : ∀ t ∈ m.active, 2 ≤ t.startTime ∧ t.startTime < m.currentStartTimestamp
  transactionId_mem : ∀ t ∈ m.active,
    transactionIdStart ≤ t.transactionId ∧ t.transactionId < m.currentTransactionId
  transactionId_inj : ∀ t ∈ m.active, ∀ u ∈ m.active, t.transactionId = u.transactionId → t = u
  committing : ∀ t c, m.committing = some (t, c) → t ∈ m.active ∧ m.Committed c
  nodup : m.active.Nodup

variable {m m' : TransactionManager} {t u : TransactionData}

theorem new_valid : new.Valid where
  timestamp := le_rfl
  timestamp_le := by decide
  le_transactionId := le_rfl
  transactionId_le := by decide
  startTime_lt := by simp [new]
  transactionId_mem := by simp [new]
  transactionId_inj := by simp [new]
  committing := by simp [new]
  nodup := .nil

/-! ## Starts -/

theorem startTransaction_eq (h : m.startTransaction = some (t, m')) :
    m.currentStartTimestamp < transactionIdStart ∧ t = ⟨m.currentTransactionId, m.currentStartTimestamp⟩ ∧
      m' = ⟨m.currentStartTimestamp + 1, m.currentTransactionId + 1, t :: m.active, m.committing⟩ := by
  rw [startTransaction] at h
  by_cases hlt : transactionIdStart ≤ m.currentStartTimestamp
  · rw [if_pos hlt] at h
    exact absurd h (by simp)
  · rw [if_neg hlt] at h
    obtain ⟨rfl, rfl⟩ := Prod.mk.inj (Option.some_inj.1 h)
    exact ⟨not_le.1 hlt, rfl, rfl⟩

variable {id : ℕ}

theorem Committed.start (hid : m.Committed id) (h : m.startTransaction = some (t, m')) : m'.Committed id := by
  obtain ⟨-, rfl, rfl⟩ := startTransaction_eq h
  refine ⟨lt_succ_of_lt hid.lt, fun u hu => ?_⟩
  rcases mem_cons.1 hu with rfl | hu
  · exact hid.lt.ne
  · exact hid.ne u hu

theorem Settled.start (hid : m.Settled id) (h : m.startTransaction = some (t, m')) : m'.Settled id := by
  obtain ⟨-, rfl, rfl⟩ := startTransaction_eq h
  refine ⟨lt_succ_of_lt hid.lt, fun u hu => ?_⟩
  rcases mem_cons.1 hu with rfl | hu
  · exact hid.lt
  · exact hid.before u hu

theorem Drawn.mono (hid : m.Drawn id) (htime : m.currentStartTimestamp ≤ m'.currentStartTimestamp)
    (hle : m.currentTransactionId ≤ m'.currentTransactionId) : m'.Drawn id := by
  rcases hid with hlt | ⟨hge, hlt⟩ | heq
  · exact .inl (hlt.trans_le htime)
  · exact .inr (.inl ⟨hge, hlt.trans_le hle⟩)
  · exact .inr (.inr heq)

theorem Committed.drawn (hid : m.Committed id) : m.Drawn id := .inl hid.lt

theorem Valid.drawn (hm : m.Valid) (ht : t ∈ m.active) : m.Drawn t.transactionId :=
  .inr (.inl (hm.transactionId_mem t ht))

theorem Valid.start (hm : m.Valid) (h : m.startTransaction = some (t, m')) : m'.Valid := by
  have hcomd : ∀ id, m.Committed id → m'.Committed id := fun id hid => hid.start h
  obtain ⟨hlt, rfl, rfl⟩ := startTransaction_eq h
  have hfr : ∀ u ∈ m.active, u.transactionId ≠ m.currentTransactionId :=
    fun u hu => (hm.transactionId_mem u hu).2.ne
  refine
    { timestamp := hm.timestamp.trans (le_succ _)
      timestamp_le := hlt
      le_transactionId := hm.le_transactionId.trans (le_succ _)
      transactionId_le := succ_le_succ hm.transactionId_le
      startTime_lt := fun u hu => ?_
      transactionId_mem := fun u hu => ?_
      transactionId_inj := fun u hu w hw heq => ?_
      committing := fun u c hc => ?_
      nodup := nodup_cons.2 ⟨fun hmem => hfr _ hmem rfl, hm.nodup⟩ }
  · rcases mem_cons.1 hu with rfl | hu
    · exact ⟨hm.timestamp, lt_succ_self _⟩
    · exact ⟨(hm.startTime_lt u hu).1, lt_succ_of_lt (hm.startTime_lt u hu).2⟩
  · rcases mem_cons.1 hu with rfl | hu
    · exact ⟨hm.le_transactionId, lt_succ_self _⟩
    · exact ⟨(hm.transactionId_mem u hu).1, lt_succ_of_lt (hm.transactionId_mem u hu).2⟩
  · rcases mem_cons.1 hu with rfl | hu
    · rcases mem_cons.1 hw with rfl | hw
      · rfl
      · exact absurd heq.symm (hfr w hw)
    · rcases mem_cons.1 hw with rfl | hw
      · exact absurd heq (hfr u hu)
      · exact hm.transactionId_inj u hu w hw heq
  · exact ⟨mem_cons_of_mem _ (hm.committing u c hc).1, hcomd c (hm.committing u c hc).2⟩

/-! ## Commits -/

theorem Committed.startCommit (hid : m.Committed id) : (m.startCommit t).Committed id :=
  ⟨lt_succ_of_lt hid.lt, hid.ne⟩

theorem Settled.startCommit (hid : m.Settled id) : (m.startCommit t).Settled id := ⟨lt_succ_of_lt hid.lt, hid.before⟩

/-- The commit id is not the start time of a transaction. -/
theorem Valid.committed_timestamp (hm : m.Valid) : (m.startCommit t).Committed m.currentStartTimestamp :=
  ⟨lt_succ_self _, fun u hu => (hm.startTime_lt u hu).2.ne'⟩

theorem Valid.startCommit (hm : m.Valid) (h : m.MayCommit t) : (m.startCommit t).Valid where
  timestamp := hm.timestamp.trans (le_succ _)
  timestamp_le := h.timestamp
  le_transactionId := hm.le_transactionId
  transactionId_le := hm.transactionId_le.trans (le_succ _)
  startTime_lt := fun u hu => ⟨(hm.startTime_lt u hu).1, lt_succ_of_lt (hm.startTime_lt u hu).2⟩
  transactionId_mem := hm.transactionId_mem
  transactionId_inj := hm.transactionId_inj
  committing := fun u c hc => by
    obtain ⟨rfl, rfl⟩ := Prod.mk.inj (Option.some_inj.1 hc)
    exact ⟨h.active, hm.committed_timestamp⟩
  nodup := hm.nodup

theorem Valid.abortCommit (hm : m.Valid) : m.abortCommit.Valid where
  timestamp := hm.timestamp
  timestamp_le := hm.timestamp_le
  le_transactionId := hm.le_transactionId
  transactionId_le := hm.transactionId_le
  startTime_lt := hm.startTime_lt
  transactionId_mem := hm.transactionId_mem
  transactionId_inj := hm.transactionId_inj
  committing := fun _ _ h => nomatch h
  nodup := hm.nodup

/-! ## Ends -/

theorem Committed.remove (hid : m.Committed id) : (m.removeTransaction t).Committed id :=
  ⟨hid.lt, fun u hu => hid.ne u (mem_of_mem_erase hu)⟩

theorem Settled.remove (hid : m.Settled id) : (m.removeTransaction t).Settled id :=
  ⟨hid.lt, fun u hu => hid.before u (mem_of_mem_erase hu)⟩

theorem mem_removeTransaction (hm : m.Valid) : u ∈ (m.removeTransaction t).active ↔ u ≠ t ∧ u ∈ m.active :=
  hm.nodup.mem_erase_iff

theorem Valid.remove (hm : m.Valid) : (m.removeTransaction t).Valid where
  timestamp := hm.timestamp
  timestamp_le := hm.timestamp_le
  le_transactionId := hm.le_transactionId
  transactionId_le := hm.transactionId_le
  startTime_lt := fun u hu => hm.startTime_lt u (mem_of_mem_erase hu)
  transactionId_mem := fun u hu => hm.transactionId_mem u (mem_of_mem_erase hu)
  transactionId_inj := fun u hu w hw =>
    hm.transactionId_inj u (mem_of_mem_erase hu) w (mem_of_mem_erase hw)
  committing := fun u c hc => by
    rw [removeTransaction] at hc
    dsimp only at hc
    by_cases ht : m.committing.map Prod.fst = some t
    · rw [if_pos ht] at hc
      exact absurd hc (by simp)
    · rw [if_neg ht] at hc
      obtain ⟨hu, hcomd⟩ := hm.committing u c hc
      refine ⟨(mem_removeTransaction hm).2 ⟨?_, hu⟩, hcomd.remove⟩
      rintro rfl
      exact ht (by rw [hc, Option.map_some])
  nodup := hm.nodup.erase t

/-! ## Visibility -/

theorem Valid.startTime_lt_transactionId (hm : m.Valid) (ht : t ∈ m.active) (hu : u ∈ m.active) :
    t.startTime < u.transactionId :=
  (hm.startTime_lt t ht).2.trans_le (hm.timestamp_le.trans (hm.transactionId_mem u hu).1)

theorem Committed.lt_transactionId (hid : m.Committed id) (hm : m.Valid)
    (ht : t ∈ m.active) : id < t.transactionId :=
  hid.lt.trans_le (hm.timestamp_le.trans (hm.transactionId_mem t ht).1)

theorem Settled.useInsertedVersion (hid : m.Settled id) (ht : t ∈ m.active) : t.useInsertedVersion id = true := by
  rw [TransactionData.useInsertedVersion, decide_eq_true (hid.before t ht), Bool.true_or]

theorem Valid.settled_zero (hm : m.Valid) : m.Settled 0 :=
  ⟨zero_lt_of_lt hm.timestamp, fun t ht => zero_lt_of_lt (hm.startTime_lt t ht).1⟩

theorem Committed.settled (hid : m.Committed id) (h : ∀ t ∈ m.active, id ≤ t.startTime) : m.Settled id :=
  ⟨hid.lt, fun t ht => (h t ht).lt_of_ne (hid.ne t ht)⟩

theorem Settled.committed (hid : m.Settled id) : m.Committed id := ⟨hid.lt, fun t ht => (hid.before t ht).ne⟩

theorem Valid.transactionId_lt_notDeletedId (hm : m.Valid) (ht : t ∈ m.active) : t.transactionId < notDeletedId :=
  calc
    t.transactionId < m.currentTransactionId := (hm.transactionId_mem t ht).2
    _ ≤ transactionIdStart + transactionIdStart := hm.transactionId_le.trans (Nat.add_le_add_left hm.timestamp_le _)
    _ < notDeletedId := by decide

theorem Valid.useDeletedVersion_notDeleted (hm : m.Valid) (ht : t ∈ m.active) :
    t.useDeletedVersion notDeletedId = true := by
  have hid := hm.transactionId_lt_notDeletedId ht
  have h₁ : ¬notDeletedId < t.startTime := ((hm.startTime_lt_transactionId ht ht).trans hid).not_gt
  have h₂ : ¬notDeletedId = t.transactionId := hid.ne'
  rw [TransactionData.useDeletedVersion, TransactionData.useInsertedVersion, decide_eq_false h₁, decide_eq_false h₂]
  rfl

end TransactionManager

end WfOpt

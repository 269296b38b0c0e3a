import WfOpt.Lib.Transition
import WfOpt.Transaction.Manager

/-!
# Cleanup of transactions

The transaction manager keeps the transactions that were committed recently, and when a transaction ends it hands
over those that are older than all active ones (`DuckTransactionManager.removeTransaction`). They are cleaned up
from a queue, after the transaction lock has been released.

The main result is `cleanup_safe`, for all runs of the manager with the cleanup (`CleanupState.Next`): transactions
that are handed over are before all active ones, now and from now on, and each one is handed over once. None is left
when no transaction is active (`cleaned_once`). Without the transactions that have ended, the manager is a
`TransactionManager` (`TransactionManager.Abstracts`, `manager_refines`).
-/

namespace WfOpt

open List Nat

/-- `MAX_TRANSACTION_ID` -/
def maxTransactionId : ℕ := 2 ^ 64 - 1

/-- `UndoBufferProperties` -/
structure UndoBufferProperties where
  hasUpdates : Bool
  hasIndexDeletes : Bool
  hasCatalogChanges : Bool
  deriving DecidableEq

/-- There are versions that have to be kept for others. -/
def UndoBufferProperties.keepsVersions (p : UndoBufferProperties) : Bool :=
  p.hasUpdates || p.hasIndexDeletes || p.hasCatalogChanges

/-- `DuckTransaction`: the commit id is 0 unless the transaction was committed. -/
structure DuckTransaction extends TransactionData where
  commitId : ℕ
  changesMade : Bool
  awaitingCleanup : Bool
  properties : UndoBufferProperties
  deriving DecidableEq

/-- `DuckCleanupInfo` -/
structure DuckCleanupInfo where
  lowestStartTime : ℕ
  transactions : List DuckTransaction

/-- `DuckCleanupInfo::Cleanup`: the transactions that are cleaned up. -/
def DuckCleanupInfo.cleanup (info : DuckCleanupInfo) : List DuckTransaction :=
  info.transactions.filter (·.awaitingCleanup)

/-- `DuckTransactionManager` -/
structure DuckTransactionManager where
  currentStartTimestamp : ℕ
  currentTransactionId : ℕ
  lowestActiveId : ℕ
  lowestActiveStart : ℕ
  activeTransactions : List DuckTransaction
  recentlyCommittedTransactions : List DuckTransaction
  cleanupQueue : List DuckCleanupInfo

namespace DuckTransactionManager

/-- `DuckTransactionManager::DuckTransactionManager` -/
def new : DuckTransactionManager := ⟨2, transactionIdStart, transactionIdStart, maxTransactionId, [], [], []⟩

variable (m : DuckTransactionManager)

/-- `StartTransaction`: "Cannot start more transactions, ran out of transaction identifiers!" -/
def startTransaction : Option (DuckTransaction × DuckTransactionManager) :=
  if transactionIdStart ≤ m.currentStartTimestamp then none
  else
    let t : DuckTransaction := ⟨⟨m.currentTransactionId, m.currentStartTimestamp⟩, 0, false, false,
      ⟨false, false, false⟩⟩
    some (t, { m with
      currentStartTimestamp := m.currentStartTimestamp + 1
      currentTransactionId := m.currentTransactionId + 1
      lowestActiveStart := if m.activeTransactions.isEmpty then m.currentStartTimestamp else m.lowestActiveStart
      lowestActiveId := if m.activeTransactions.isEmpty then m.currentTransactionId else m.lowestActiveId
      activeTransactions := m.activeTransactions ++ [t] })

/-- The other active transactions. -/
def others (t : DuckTransaction) : List DuckTransaction :=
  m.activeTransactions.filter fun u => u.transactionId ≠ t.transactionId

/-- The lowest start time of the other active transactions, or `TRANSACTION_ID_START`. -/
def lowestStartTime (t : DuckTransaction) : ℕ :=
  (m.others t).foldl (fun lowest u => min lowest u.startTime) transactionIdStart

/-- The recently committed transactions, with the one that ends. -/
def recentlyWith (t : DuckTransaction) (storeTransaction : Bool) : List DuckTransaction :=
  if storeTransaction && t.commitId ≠ 0 then m.recentlyCommittedTransactions ++ [t]
  else m.recentlyCommittedTransactions

/-- The transaction that ends, if it is not kept. -/
def handedDirectly (t : DuckTransaction) (storeTransaction : Bool) : List DuckTransaction :=
  if storeTransaction then if t.commitId ≠ 0 then [] else [t]
  else if t.changesMade then [{ t with awaitingCleanup := true }] else []

/-- `RemoveTransaction`: what is handed over, and what the manager is like afterwards. -/
def removeTransaction (t : DuckTransaction) (storeTransaction : Bool) : DuckCleanupInfo × DuckTransactionManager :=
  let lowestStartTime := m.lowestStartTime t
  let recently := m.recentlyWith t storeTransaction
  let old := recently.takeWhile fun u => u.commitId < lowestStartTime
  (⟨lowestStartTime, handedDirectly t storeTransaction ++ old.map fun u => { u with awaitingCleanup := true }⟩,
    { m with
      lowestActiveStart := lowestStartTime
      lowestActiveId := (m.others t).foldl (fun lowest u => min lowest u.transactionId) maxTransactionId
      activeTransactions := m.others t
      recentlyCommittedTransactions := recently.dropWhile fun u => u.commitId < lowestStartTime })

/-- `ScheduleCleanup`, and the cleanup queue. -/
def schedule (info : DuckCleanupInfo) : DuckTransactionManager :=
  if info.transactions.isEmpty then m else { m with cleanupQueue := m.cleanupQueue ++ [info] }

/-- A transaction is removed, and what is handed over is queued. -/
def finish (t : DuckTransaction) (storeTransaction : Bool) : DuckTransactionManager :=
  let (info, m) := m.removeTransaction t storeTransaction
  m.schedule info

/-- `GetCommitTimestamp` -/
def getCommitTimestamp : DuckTransactionManager := { m with currentStartTimestamp := m.currentStartTimestamp + 1 }

/-- `CommitTransaction`, from the commit id on until the lock is released. Whether there were changes is asked again
    after the commit. -/
def commitTransaction (t : DuckTransaction) (undoProperties : UndoBufferProperties)
    (changesMade error : Bool) : DuckTransactionManager :=
  let t := { t with
    commitId := if error then 0 else m.currentStartTimestamp
    changesMade := changesMade }
  m.getCommitTimestamp.finish t (undoProperties.keepsVersions || error)

/-- `RollbackTransaction`, until the lock is released. -/
def rollbackTransaction (t : DuckTransaction) (changesMade : Bool) : DuckTransactionManager :=
  m.finish { t with changesMade := changesMade } changesMade

end DuckTransactionManager

/-! ## Runs -/

/-- The manager, the transactions that write to the log, with their properties from before, and how many threads have
    yet to clean up; the cleanups so far and the stored transactions are recorded. -/
structure CleanupState where
  manager : DuckTransactionManager
  writing : List (ℕ × UndoBufferProperties)
  waiting : ℕ
  cleaned : List DuckCleanupInfo
  stored : List ℕ

namespace CleanupState

/-- Nothing has happened yet. -/
def Init (s : CleanupState) : Prop := s = ⟨.new, [], 0, [], []⟩

variable (s : CleanupState)

/-- The transactions that have been handed to a cleanup. -/
def handed : List DuckTransaction := (s.cleaned ++ s.manager.cleanupQueue).flatMap DuckCleanupInfo.cleanup

/-- The ids of the transactions that have ended, and have been kept or handed over. -/
def removed : List ℕ := (s.manager.recentlyCommittedTransactions ++ s.handed).map fun t => t.transactionId

/-- The properties that the commit of a transaction has read: before the log was written, or just
    now. -/
def Committing (t : DuckTransaction) (p : UndoBufferProperties) : Prop := t ∈ s.manager.activeTransactions ∧
    ((t.transactionId, p) ∈ s.writing ∨ t.transactionId ∉ s.writing.map Prod.fst ∧ p = t.properties)

/-- A transaction is neither in a commit nor at its end. -/
def Running (t : DuckTransaction) : Prop :=
  t ∈ s.manager.activeTransactions ∧ t.transactionId ∉ s.writing.map Prod.fst

/-- The transaction is not writing to the log any more. -/
def stopWriting (t : DuckTransaction) : List (ℕ × UndoBufferProperties) :=
  s.writing.filter fun w => w.1 ≠ t.transactionId

/-- The steps of transactions and of the cleanup. A fatal error leaves a transaction active. -/
inductive Next : CleanupState → CleanupState → Prop
  | start (s : CleanupState) (t : DuckTransaction) (m : DuckTransactionManager)
    (h : s.manager.startTransaction = some (t, m)) : Next s { s with manager := m }
  | change (s : CleanupState) (t : DuckTransaction) (changesMade : Bool) (p : UndoBufferProperties)
    (h : s.Running t) :
    Next s { s with manager := { s.manager with
      activeTransactions := s.manager.activeTransactions.map fun u =>
        if u.transactionId = t.transactionId then { u with changesMade := changesMade, properties := p }
        else u } }
  | writeToWAL (s : CleanupState) (t : DuckTransaction) (h : s.Running t) :
    Next s { s with writing := (t.transactionId, t.properties) :: s.writing }
  | commit (s : CleanupState) (t : DuckTransaction) (p : UndoBufferProperties) (changesMade error : Bool)
    (h : s.Committing t p) :
    Next s { s with
      manager := s.manager.commitTransaction t p changesMade error
      writing := s.stopWriting t
      waiting := s.waiting + 1
      stored := if p.keepsVersions && !error then t.transactionId :: s.stored else s.stored }
  | commitFatal (s : CleanupState) (t : DuckTransaction) (p : UndoBufferProperties)
    (h : s.Committing t p) :
    Next s { s with manager := s.manager.getCommitTimestamp, writing := s.stopWriting t }
  | rollback (s : CleanupState) (t : DuckTransaction) (changesMade : Bool) (h : s.Running t) :
    Next s { s with
      manager := s.manager.rollbackTransaction t changesMade
      waiting := s.waiting + 1 }
  | cleanup (s : CleanupState) (info : DuckCleanupInfo) (queue : List DuckCleanupInfo)
    (hwaiting : 0 < s.waiting) (h : s.manager.cleanupQueue = info :: queue) :
    Next s { s with
      manager := { s.manager with cleanupQueue := queue }
      waiting := s.waiting - 1
      cleaned := s.cleaned ++ [info] }
  | noCleanup (s : CleanupState) (hwaiting : 0 < s.waiting) (h : s.manager.cleanupQueue = []) :
    Next s { s with waiting := s.waiting - 1 }

end CleanupState

namespace DuckTransactionManager

variable {m : DuckTransactionManager} {t u : DuckTransaction}

/-! ## Lowest start times -/

theorem mem_others : u ∈ m.others t ↔ u ∈ m.activeTransactions ∧ u.transactionId ≠ t.transactionId := by
  rw [others, mem_filter, decide_eq_true_iff]

/-- A minimum is below all values, and it is one of them. -/
theorem foldl_min_spec (f : DuckTransaction → ℕ) (l : List DuckTransaction) : ∀ a : ℕ,
    let lowest := l.foldl (fun lowest u => min lowest (f u)) a
    lowest ≤ a ∧ (∀ u ∈ l, lowest ≤ f u) ∧ (lowest = a ∨ ∃ u ∈ l, lowest = f u) := by
  induction l with
  | nil => exact fun a => ⟨le_rfl, fun u hu => absurd hu not_mem_nil, .inl rfl⟩
  | cons u l ih =>
    intro a
    obtain ⟨hle, hall, hone⟩ := ih (min a (f u))
    refine ⟨hle.trans (min_le_left _ _), fun w hw => ?_, ?_⟩
    · rcases mem_cons.1 hw with rfl | hw
      · exact hle.trans (min_le_right _ _)
      · exact hall w hw
    · rcases hone with heq | ⟨w, hw, heq⟩
      · rcases min_choice a (f u) with hmin | hmin
        · exact .inl (heq.trans hmin)
        · exact .inr ⟨u, mem_cons_self, heq.trans hmin⟩
      · exact .inr ⟨w, mem_cons_of_mem _ hw, heq⟩

theorem lowestStartTime_le (hu : u ∈ m.others t) : m.lowestStartTime t ≤ u.startTime :=
  (foldl_min_spec (fun u => u.startTime) (m.others t) transactionIdStart).2.1 u hu

theorem lowestStartTime_cases (m : DuckTransactionManager) (t : DuckTransaction) :
    m.lowestStartTime t = transactionIdStart ∨ ∃ u ∈ m.others t, m.lowestStartTime t = u.startTime :=
  (foldl_min_spec (fun u => u.startTime) (m.others t) transactionIdStart).2.2

/-! ## What is handed over -/

variable (m t) in
theorem cleanup_removeTransaction {store : Bool} (hawait : t.awaitingCleanup = false) :
    (m.removeTransaction t store).1.cleanup =
      (if !store && t.changesMade then [{ t with awaitingCleanup := true }] else []) ++
        ((m.recentlyWith t store).takeWhile fun u => u.commitId < m.lowestStartTime t).map
          fun u => { u with awaitingCleanup := true } := by
  have hold : ∀ l : List DuckTransaction,
      (l.map fun u => { u with awaitingCleanup := true }).filter (·.awaitingCleanup) =
        l.map fun u => { u with awaitingCleanup := true } := fun l =>
    filter_eq_self.2 fun u hu => by
      obtain ⟨w, -, rfl⟩ := mem_map.1 hu
      rfl
  rw [removeTransaction, DuckCleanupInfo.cleanup]
  dsimp only
  rw [filter_append, hold]
  refine congrArg (· ++ _) ?_
  rw [handedDirectly]
  cases store with
  | true =>
    by_cases hid : t.commitId ≠ 0
    · rw [if_pos rfl, if_pos hid]
      rfl
    · rw [if_pos rfl, if_neg hid, filter_cons_of_neg (by rw [hawait]; exact Bool.false_ne_true)]
      rfl
  | false => cases t.changesMade <;> rfl

theorem finish_eq (m : DuckTransactionManager) (t : DuckTransaction) (store : Bool) :
    ∃ queue, m.finish t store = { (m.removeTransaction t store).2 with cleanupQueue := queue } ∧
      queue.length ≤ m.cleanupQueue.length + 1 ∧
      queue.flatMap DuckCleanupInfo.cleanup = m.cleanupQueue.flatMap DuckCleanupInfo.cleanup ++
        (m.removeTransaction t store).1.cleanup := by
  obtain ⟨⟨info, m'⟩, heq⟩ : ∃ r, r = m.removeTransaction t store := ⟨_, rfl⟩
  have hqueue : m'.cleanupQueue = m.cleanupQueue := congrArg (fun r => r.2.cleanupQueue) heq
  rw [finish, ← heq]
  dsimp only
  rw [schedule]
  by_cases hemp : info.transactions.isEmpty
  · rw [if_pos hemp]
    refine ⟨m.cleanupQueue, hqueue ▸ rfl, le_succ _, ?_⟩
    rw [DuckCleanupInfo.cleanup, isEmpty_iff.1 hemp, filter_nil, append_nil]
  · rw [if_neg hemp, hqueue]
    refine ⟨m.cleanupQueue ++ [info], rfl, length_append.le, ?_⟩
    rw [flatMap_append, flatMap_singleton]

end DuckTransactionManager

namespace CleanupState

/-! ## The invariant -/

variable (s : CleanupState)

/-- What holds between the steps. -/
structure Inv : Prop where
  timestamp : 0 < s.manager.currentStartTimestamp
  active : ∀ t ∈ s.manager.activeTransactions, t.commitId = 0 ∧ t.awaitingCleanup = false ∧
    t.startTime < s.manager.currentStartTimestamp ∧ t.transactionId < s.manager.currentTransactionId
  nodup_active : (s.manager.activeTransactions.map fun t => t.transactionId).Nodup
  lowest : ∀ t ∈ s.manager.activeTransactions, s.manager.lowestActiveStart ≤ t.startTime
  writing : ∀ w ∈ s.writing, w.1 < s.manager.currentTransactionId ∧
    ∀ t ∈ s.manager.activeTransactions, t.transactionId = w.1 → t.properties = w.2
  sorted : s.manager.recentlyCommittedTransactions.Pairwise fun t u => t.commitId < u.commitId
  recently : ∀ t ∈ s.manager.recentlyCommittedTransactions,
    t.commitId ≠ 0 ∧ t.commitId < s.manager.currentStartTimestamp
  needed : ∀ t ∈ s.manager.recentlyCommittedTransactions, transactionIdStart ≤ t.commitId ∨
    ∃ u ∈ s.manager.activeTransactions, u.startTime ≤ t.commitId
  handed : ∀ t ∈ s.handed, t.properties.keepsVersions = true → t.commitId ≠ 0 →
    t.commitId < s.manager.currentStartTimestamp ∧
      ∀ u ∈ s.manager.activeTransactions, t.commitId < u.startTime
  removed : ∀ i ∈ s.removed, i < s.manager.currentTransactionId ∧
    ∀ u ∈ s.manager.activeTransactions, u.transactionId ≠ i
  nodup : s.removed.Nodup
  stored : ∀ i ∈ s.stored, i ∈ s.removed
  queue : s.manager.cleanupQueue.length ≤ s.waiting

variable {s}

theorem Init.inv (h : s.Init) : s.Inv := by
  obtain rfl := h
  constructor <;> simp [DuckTransactionManager.new, CleanupState.removed, CleanupState.handed]

namespace Inv

variable (h : s.Inv)
include h

variable {t : DuckTransaction}

theorem start {m : DuckTransactionManager}
    (hst : s.manager.startTransaction = some (t, m)) : Inv { s with manager := m } := by
  rw [DuckTransactionManager.startTransaction] at hst
  by_cases hlt : transactionIdStart ≤ s.manager.currentStartTimestamp
  · rw [if_pos hlt] at hst
    exact absurd hst (by simp)
  rw [if_neg hlt] at hst
  obtain ⟨rfl, rfl⟩ := Prod.mk.inj (Option.some_inj.1 hst)
  refine
    { timestamp := succ_pos _
      active := fun u hu => ?_
      nodup_active := ?_
      lowest := fun u hu => ?_
      writing := fun w hw => ?_
      sorted := h.sorted
      recently := fun u hu => ⟨(h.recently u hu).1, lt_succ_of_lt (h.recently u hu).2⟩
      needed := fun u hu => ?_
      handed := fun u hu hkeep hid => ?_
      removed := fun u hu => ?_
      nodup := h.nodup
      stored := h.stored
      queue := h.queue }
  · rcases mem_append.1 hu with hu | hu
    · obtain ⟨hid, hawait, htime, hlt⟩ := h.active u hu
      exact ⟨hid, hawait, lt_succ_of_lt htime, lt_succ_of_lt hlt⟩
    · obtain rfl := mem_singleton.1 hu
      exact ⟨rfl, rfl, lt_succ_self _, lt_succ_self _⟩
  · rw [map_append, map_singleton]
    refine h.nodup_active.append (nodup_singleton _) fun i hi hi' => ?_
    obtain ⟨u, hu, rfl⟩ := mem_map.1 hi
    exact absurd (mem_singleton.1 hi') (h.active u hu).2.2.2.ne
  · dsimp only
    rcases mem_append.1 hu with hu | hu
    · rw [if_neg fun hemp => by
        rw [isEmpty_iff.1 hemp] at hu
        exact not_mem_nil hu]
      exact h.lowest u hu
    · obtain rfl := mem_singleton.1 hu
      by_cases hemp : s.manager.activeTransactions.isEmpty
      · exact (if_pos hemp).le
      · obtain ⟨w, hw⟩ := exists_mem_of_ne_nil _ fun hnil => hemp (isEmpty_iff.2 hnil)
        exact (if_neg hemp).le.trans ((h.lowest w hw).trans (h.active w hw).2.2.1.le)
  · obtain ⟨hlt, hact⟩ := h.writing w hw
    refine ⟨lt_succ_of_lt hlt, fun u hu hid => ?_⟩
    rcases mem_append.1 hu with hu | hu
    · exact hact u hu hid
    · obtain rfl := mem_singleton.1 hu
      exact absurd hid hlt.ne'
  · exact (h.needed u hu).imp_right fun ⟨w, hw, hle⟩ => ⟨w, mem_append_left _ hw, hle⟩
  · obtain ⟨hcom, hact⟩ := h.handed u hu hkeep hid
    refine ⟨lt_succ_of_lt hcom, fun w hw => ?_⟩
    rcases mem_append.1 hw with hw | hw
    · exact hact w hw
    · obtain rfl := mem_singleton.1 hw
      exact hcom
  · obtain ⟨hlt, hact⟩ := h.removed u hu
    refine ⟨lt_succ_of_lt hlt, fun w hw => ?_⟩
    rcases mem_append.1 hw with hw | hw
    · exact hact w hw
    · obtain rfl := mem_singleton.1 hw
      exact hlt.ne'

theorem change {changesMade : Bool} {p : UndoBufferProperties}
    (hrun : s.Running t) :
    Inv { s with manager := { s.manager with
      activeTransactions := s.manager.activeTransactions.map fun u =>
        if u.transactionId = t.transactionId then { u with changesMade := changesMade, properties := p }
        else u } } := by
  let f := fun u : DuckTransaction =>
    if u.transactionId = t.transactionId then { u with changesMade := changesMade, properties := p } else u
  have hf : ∀ u, (f u).toTransactionData = u.toTransactionData ∧ (f u).commitId = u.commitId ∧
      (f u).awaitingCleanup = u.awaitingCleanup ∧
        (u.transactionId ≠ t.transactionId → (f u).properties = u.properties) := by
    intro u
    by_cases hu : u.transactionId = t.transactionId
    · rw [show f u = _ from if_pos hu]
      exact ⟨rfl, rfl, rfl, fun hne => absurd hu hne⟩
    · rw [show f u = u from if_neg hu]
      exact ⟨rfl, rfl, rfl, fun _ => rfl⟩
  have hid : ∀ u, (f u).transactionId = u.transactionId :=
    fun u => congrArg TransactionData.transactionId (hf u).1
  have htime : ∀ u, (f u).startTime = u.startTime :=
    fun u => congrArg TransactionData.startTime (hf u).1
  refine
    { timestamp := h.timestamp
      active := fun u hu => ?_
      nodup_active := ?_
      lowest := fun u hu => ?_
      writing := fun w hw => ⟨(h.writing w hw).1, fun u hu heq => ?_⟩
      sorted := h.sorted
      recently := h.recently
      needed := fun u hu => ?_
      handed := fun u hu hkeep hcom => ⟨(h.handed u hu hkeep hcom).1, fun w hw => ?_⟩
      removed := fun u hu => ⟨(h.removed u hu).1, fun w hw => ?_⟩
      nodup := h.nodup
      stored := h.stored
      queue := h.queue }
  · obtain ⟨v, hv, rfl⟩ := mem_map.1 hu
    obtain ⟨h₁, h₂, h₃, h₄⟩ := h.active v hv
    exact ⟨(hf v).2.1.trans h₁, (hf v).2.2.1.trans h₂, (htime v).trans_lt h₃, (hid v).trans_lt h₄⟩
  · have heq : (s.manager.activeTransactions.map f).map (fun u => u.transactionId) =
        s.manager.activeTransactions.map fun u => u.transactionId := by
      rw [map_map]
      exact map_congr_left fun u _ => hid u
    exact heq ▸ h.nodup_active
  · obtain ⟨v, hv, rfl⟩ := mem_map.1 hu
    exact (h.lowest v hv).trans_eq (htime v).symm
  · obtain ⟨v, hv, rfl⟩ := mem_map.1 hu
    have heq := (hid v).symm.trans heq
    exact ((hf v).2.2.2 fun ht => hrun.2 (mem_map.2 ⟨w, hw, heq.symm.trans ht⟩)).trans
      ((h.writing w hw).2 v hv heq)
  · exact (h.needed u hu).imp_right fun ⟨w, hw, hle⟩ =>
      ⟨f w, mem_map_of_mem hw, (htime w).trans_le hle⟩
  · obtain ⟨v, hv, rfl⟩ := mem_map.1 hw
    exact ((h.handed u hu hkeep hcom).2 v hv).trans_eq (htime v).symm
  · obtain ⟨v, hv, rfl⟩ := mem_map.1 hw
    exact (hid v).trans_ne ((h.removed u hu).2 v hv)

theorem eq_of_transactionId {t u : DuckTransaction} (ht : t ∈ s.manager.activeTransactions)
    (hu : u ∈ s.manager.activeTransactions) (heq : t.transactionId = u.transactionId) : t = u :=
  inj_on_of_nodup_map h.nodup_active ht hu heq

theorem writeToWAL (hrun : s.Running t) :
    Inv { s with writing := (t.transactionId, t.properties) :: s.writing } where
  timestamp := h.timestamp
  active := h.active
  nodup_active := h.nodup_active
  lowest := h.lowest
  writing w hw := by
    rcases mem_cons.1 hw with rfl | hw
    · refine ⟨(h.active t hrun.1).2.2.2, fun u hu heq => ?_⟩
      rw [h.eq_of_transactionId hu hrun.1 heq]
    · exact h.writing w hw
  sorted := h.sorted
  recently := h.recently
  needed := h.needed
  handed := h.handed
  removed := h.removed
  nodup := h.nodup
  stored := h.stored
  queue := h.queue

/-- The properties that a commit has read are those of the transaction. -/
theorem properties_eq {p : UndoBufferProperties} (hcom : s.Committing t p) : t.properties = p := by
  rcases hcom with ⟨ht, hw | ⟨-, rfl⟩⟩
  · exact (h.writing _ hw).2 t ht rfl
  · rfl

theorem stopWriting (t : DuckTransaction) : Inv { s with writing := s.stopWriting t } where
  timestamp := h.timestamp
  active := h.active
  nodup_active := h.nodup_active
  lowest := h.lowest
  writing w hw := h.writing w (mem_of_mem_filter hw)
  sorted := h.sorted
  recently := h.recently
  needed := h.needed
  handed := h.handed
  removed := h.removed
  nodup := h.nodup
  stored := h.stored
  queue := h.queue

theorem getCommitTimestamp : Inv { s with manager := s.manager.getCommitTimestamp } where
  timestamp := succ_pos _
  active t ht := by
    obtain ⟨h₁, h₂, h₃, h₄⟩ := h.active t ht
    exact ⟨h₁, h₂, lt_succ_of_lt h₃, h₄⟩
  nodup_active := h.nodup_active
  lowest := h.lowest
  writing := h.writing
  sorted := h.sorted
  recently t ht := ⟨(h.recently t ht).1, lt_succ_of_lt (h.recently t ht).2⟩
  needed := h.needed
  handed t ht hkeep hid := ⟨lt_succ_of_lt (h.handed t ht hkeep hid).1, (h.handed t ht hkeep hid).2⟩
  removed := h.removed
  nodup := h.nodup
  stored := h.stored
  queue := h.queue

end Inv

end CleanupState

namespace DuckTransactionManager

variable {m : DuckTransactionManager} {t : DuckTransaction}

/-! ## Ends of transactions -/

/-- The transactions from the first one on that is not old enough are not old enough. -/
theorem le_of_mem_dropWhile {l : List DuckTransaction} {lowest : ℕ}
    (hl : l.Pairwise fun t u => t.commitId < u.commitId) {u : DuckTransaction}
    (hu : u ∈ l.dropWhile fun u => u.commitId < lowest) : lowest ≤ u.commitId := by
  induction l with
  | nil => exact absurd hu not_mem_nil
  | cons w l ih =>
    obtain ⟨hw, hl⟩ := pairwise_cons.1 hl
    rw [dropWhile_cons] at hu
    by_cases hlt : w.commitId < lowest
    · rw [if_pos (decide_eq_true hlt)] at hu
      exact ih hl hu
    · rw [if_neg fun hle => hlt (of_decide_eq_true hle)] at hu
      rcases mem_cons.1 hu with rfl | hu
      · exact not_lt.1 hlt
      · exact (not_lt.1 hlt).trans (hw u hu).le

theorem mem_recentlyWith {u : DuckTransaction} {store : Bool} : u ∈ m.recentlyWith t store ↔
    u ∈ m.recentlyCommittedTransactions ∨ u = t ∧ store = true ∧ t.commitId ≠ 0 := by
  rw [recentlyWith]
  by_cases h : store && t.commitId ≠ 0
  · rw [if_pos h, mem_append, mem_singleton]
    rw [Bool.and_eq_true, decide_eq_true_iff] at h
    exact or_congr_right (and_iff_left h).symm
  · rw [if_neg h]
    rw [Bool.and_eq_true, decide_eq_true_iff] at h
    exact (or_iff_left fun h' => h h'.2).symm

/-- The id of a transaction that ends, unless it is aborted or has not changed anything. -/
def endedId (t : DuckTransaction) (store : Bool) : List ℕ :=
  if store then if t.commitId ≠ 0 then [t.transactionId] else []
  else if t.changesMade then [t.transactionId] else []

theorem eq_of_mem_endedId {store : Bool} {i : ℕ} (h : i ∈ endedId t store) : i = t.transactionId := by
  rw [endedId] at h
  split_ifs at h
  · exact mem_singleton.1 h
  · exact absurd h not_mem_nil
  · exact mem_singleton.1 h
  · exact absurd h not_mem_nil

theorem endedId_nodup (t : DuckTransaction) (store : Bool) : (endedId t store).Nodup := by
  rw [endedId]
  split_ifs
  · exact nodup_singleton _
  · exact nodup_nil
  · exact nodup_singleton _
  · exact nodup_nil

/-- Nothing that was kept is lost when a transaction ends, and nothing is handed over twice. -/
theorem removeTransaction_perm (m : DuckTransactionManager) (store : Bool) (hawait : t.awaitingCleanup = false) :
    (((m.removeTransaction t store).2.recentlyCommittedTransactions ++
        (m.removeTransaction t store).1.cleanup).map fun u => u.transactionId).Perm
      (endedId t store ++ m.recentlyCommittedTransactions.map fun u => u.transactionId) := by
  rw [m.cleanup_removeTransaction t hawait]
  change List.Perm (map _ ((m.recentlyWith t store).dropWhile _ ++ _)) _
  have hspl := congrArg (map fun u : DuckTransaction => u.transactionId)
    (takeWhile_append_dropWhile (p := fun u => decide (u.commitId < m.lowestStartTime t))
      (l := m.recentlyWith t store))
  rw [map_append] at hspl
  rw [map_append, map_append, map_map]
  have hdirect : (m.recentlyWith t store).map (fun u => u.transactionId) ++
      (if !store && t.changesMade then [{ t with awaitingCleanup := true }] else []).map
        (fun u : DuckTransaction => u.transactionId) =
      m.recentlyCommittedTransactions.map (fun u => u.transactionId) ++ endedId t store := by
    rw [recentlyWith, endedId]
    cases store with
    | true =>
      by_cases hid : t.commitId ≠ 0
      · simp [hid]
      · simp [hid]
    | false => cases t.changesMade <;> simp
  refine perm_iff_count.2 fun i => ?_
  have h₁ := congrArg (count i) hspl
  have h₂ := congrArg (count i) hdirect
  simp only [count_append, Function.comp_def] at h₁ h₂ ⊢
  omega

end DuckTransactionManager

namespace CleanupState

variable {s : CleanupState}

namespace Inv

variable (h : s.Inv)
include h

/-- A transaction ends, and is stored if it was committed and others need its versions. -/
theorem finish {t t' : DuckTransaction} {store : Bool} {stored : List ℕ}
    (ht : t ∈ s.manager.activeTransactions) (hdata : t'.toTransactionData = t.toTransactionData)
    (hawait : t'.awaitingCleanup = false)
    (hstore : t'.properties.keepsVersions = true → t'.commitId ≠ 0 → store = true)
    (hcom : t'.commitId ≠ 0 → t'.commitId < s.manager.currentStartTimestamp ∧
      ∀ u ∈ s.manager.recentlyCommittedTransactions, u.commitId < t'.commitId)
    (hstor : ∀ i ∈ stored, i ∈ s.stored ∨ i = t.transactionId ∧ store = true ∧ t'.commitId ≠ 0) :
    Inv { s with
      manager := s.manager.finish t' store
      waiting := s.waiting + 1
      stored := stored } := by
  obtain ⟨queue, heq, hlen, hqueue⟩ := s.manager.finish_eq t' store
  rw [heq]
  have hid : t'.transactionId = t.transactionId := congrArg TransactionData.transactionId hdata
  have hoths : ∀ u ∈ s.manager.others t', u ∈ s.manager.activeTransactions ∧
      u.transactionId ≠ t.transactionId := fun u hu => hid ▸ DuckTransactionManager.mem_others.1 hu
  -- what is handed over is behind what was handed over before
  have hhand : (s.cleaned ++ queue).flatMap DuckCleanupInfo.cleanup =
      s.handed ++ (s.manager.removeTransaction t' store).1.cleanup := by
    rw [flatMap_append, hqueue, ← append_assoc, ← flatMap_append]
    rfl
  have hremoved : (((s.manager.removeTransaction t' store).2.recentlyCommittedTransactions ++
      (s.cleaned ++ queue).flatMap DuckCleanupInfo.cleanup).map fun u => u.transactionId).Perm
        (DuckTransactionManager.endedId t' store ++ s.removed) := by
    have hperm := s.manager.removeTransaction_perm (t := t') store hawait
    rw [hhand]
    refine perm_iff_count.2 fun i => ?_
    have hcnt := hperm.count_eq i
    rw [CleanupState.removed]
    simp only [map_append, count_append] at hcnt ⊢
    omega
  have hwith : ∀ u ∈ s.manager.recentlyWith t' store,
      u.commitId ≠ 0 ∧ u.commitId < s.manager.currentStartTimestamp := by
    intro u hu
    rcases DuckTransactionManager.mem_recentlyWith.1 hu with hu | ⟨rfl, -, hne⟩
    · exact h.recently u hu
    · exact ⟨hne, (hcom hne).1⟩
  have hsort : (s.manager.recentlyWith t' store).Pairwise fun t u => t.commitId < u.commitId := by
    rw [DuckTransactionManager.recentlyWith]
    by_cases hkept : store && t'.commitId ≠ 0
    · rw [if_pos hkept]
      rw [Bool.and_eq_true, decide_eq_true_iff] at hkept
      refine pairwise_append.2 ⟨h.sorted, pairwise_singleton _ _, fun u hu w hw => ?_⟩
      obtain rfl := mem_singleton.1 hw
      exact (hcom hkept.2).2 u hu
    · rw [if_neg hkept]
      exact h.sorted
  have hfr : t.transactionId ∉ s.removed := fun hmem => (h.removed _ hmem).2 t ht rfl
  refine
    { timestamp := h.timestamp
      active := fun u hu => h.active u (hoths u hu).1
      nodup_active := h.nodup_active.sublist (filter_sublist.map _)
      lowest := fun u hu => DuckTransactionManager.lowestStartTime_le hu
      writing := fun w hw => ⟨(h.writing w hw).1, fun u hu => (h.writing w hw).2 u (hoths u hu).1⟩
      sorted := hsort.sublist (dropWhile_sublist _)
      recently := fun u hu => hwith u ((dropWhile_sublist _).subset hu)
      needed := fun u hu => ?_
      handed := fun u hu hkeep hne => ?_
      removed := fun i hi => ?_
      nodup := hremoved.nodup_iff.2 ?_
      stored := fun i hi => hremoved.mem_iff.2 (mem_append.2 ?_)
      queue := hlen.trans (succ_le_succ h.queue) }
  · have hle := DuckTransactionManager.le_of_mem_dropWhile hsort hu
    rcases s.manager.lowestStartTime_cases t' with heq | ⟨w, hw, heq⟩
    · exact .inl (heq ▸ hle)
    · exact .inr ⟨w, hw, heq ▸ hle⟩
  · change u ∈ (s.cleaned ++ queue).flatMap DuckCleanupInfo.cleanup at hu
    rw [hhand, s.manager.cleanup_removeTransaction t' hawait] at hu
    rcases mem_append.1 hu with hu | hu
    · obtain ⟨hlt, hact⟩ := h.handed u hu hkeep hne
      exact ⟨hlt, fun w hw => hact w (hoths w hw).1⟩
    rcases mem_append.1 hu with hu | hu
    · -- a committed transaction is handed over directly only if nobody needs its versions
      by_cases hdirect : !store && t'.changesMade
      · rw [if_pos hdirect] at hu
        obtain rfl := mem_singleton.1 hu
        rw [hstore hkeep hne, Bool.not_true, Bool.false_and] at hdirect
        exact absurd hdirect Bool.false_ne_true
      · rw [if_neg hdirect] at hu
        exact absurd hu not_mem_nil
    · obtain ⟨w, hw, rfl⟩ := mem_map.1 hu
      have hold : w.commitId < s.manager.lowestStartTime t' :=
        of_decide_eq_true
          (mem_takeWhile_imp (p := fun u : DuckTransaction => decide (u.commitId < _)) hw)
      exact ⟨(hwith w ((takeWhile_sublist _).subset hw)).2,
        fun v hv => hold.trans_le (DuckTransactionManager.lowestStartTime_le hv)⟩
  · rcases mem_append.1 (hremoved.mem_iff.1 hi) with hi | hi
    · obtain rfl := DuckTransactionManager.eq_of_mem_endedId hi
      exact ⟨hid ▸ (h.active t ht).2.2.2, fun u hu => hid ▸ (hoths u hu).2⟩
    · exact ⟨(h.removed i hi).1, fun u hu => (h.removed i hi).2 u (hoths u hu).1⟩
  · refine (DuckTransactionManager.endedId_nodup t' store).append h.nodup fun i hi hi' => ?_
    obtain rfl := DuckTransactionManager.eq_of_mem_endedId hi
    exact hfr (hid ▸ hi')
  · rcases hstor i hi with hi | ⟨rfl, hstore, hne⟩
    · exact .inr (h.stored i hi)
    · refine .inl ?_
      rw [DuckTransactionManager.endedId, if_pos hstore, if_pos hne, hid]
      exact mem_singleton_self _

theorem commit {t : DuckTransaction} {p : UndoBufferProperties} {changesMade error : Bool}
    (hcom : s.Committing t p) :
    Inv { s with
      manager := s.manager.commitTransaction t p changesMade error
      writing := s.stopWriting t
      waiting := s.waiting + 1
      stored := if p.keepsVersions && !error then t.transactionId :: s.stored else s.stored } := by
  have hproperties := h.properties_eq hcom
  obtain ⟨-, hawait, -⟩ := h.active t hcom.1
  have hold : ∀ u ∈ s.manager.recentlyCommittedTransactions,
      u.commitId < s.manager.currentStartTimestamp := fun u hu => (h.recently u hu).2
  cases error with
  | true =>
    refine (h.getCommitTimestamp.stopWriting t).finish hcom.1 rfl hawait
      (fun _ hne => absurd rfl hne) (fun hne => absurd rfl hne) fun i hi => .inl ?_
    rwa [Bool.not_true, Bool.and_false, if_neg Bool.false_ne_true] at hi
  | false =>
    refine (h.getCommitTimestamp.stopWriting t).finish hcom.1 rfl hawait (fun hkeep _ => ?_)
      (fun _ => ⟨lt_succ_self _, hold⟩) fun i hi => ?_
    · rw [Bool.or_false, ← hproperties]
      exact hkeep
    · by_cases hkeep : p.keepsVersions = true
      · rw [hkeep, Bool.not_false, Bool.and_true, if_pos rfl] at hi
        rcases mem_cons.1 hi with rfl | hi
        · exact .inr ⟨rfl, by rw [hkeep, Bool.true_or], h.timestamp.ne'⟩
        · exact .inl hi
      · rw [Bool.not_false, Bool.and_true, if_neg hkeep] at hi
        exact .inl hi

theorem rollback {t : DuckTransaction} {changesMade : Bool} (hrun : s.Running t) : Inv { s with
      manager := s.manager.rollbackTransaction t changesMade
      waiting := s.waiting + 1 } := by
  obtain ⟨hid, hawait, -⟩ := h.active t hrun.1
  exact h.finish hrun.1 rfl hawait (fun _ hne => absurd hid hne) (fun hne => absurd hid hne)
    fun i hi => .inl hi

theorem next {s' : CleanupState} (hnx : Next s s') : s'.Inv := by
  cases hnx with
  | start t m hst => exact h.start hst
  | change t changesMade p hrun => exact h.change hrun
  | writeToWAL t hrun => exact h.writeToWAL hrun
  | commit t p changesMade error hcom => exact h.commit hcom
  | commitFatal t p hcom => exact h.getCommitTimestamp.stopWriting t
  | rollback t changesMade hrun => exact h.rollback hrun
  | cleanup info queue hwaiting heq =>
    have hhand : CleanupState.handed { s with
        manager := { s.manager with cleanupQueue := queue }
        waiting := s.waiting - 1
        cleaned := s.cleaned ++ [info] } = s.handed := by
      rw [CleanupState.handed, CleanupState.handed, heq, append_assoc, singleton_append]
    have hqueue := h.queue
    rw [heq, length_cons] at hqueue
    refine { h with handed := ?_, removed := ?_, nodup := ?_, stored := ?_, queue := ?_ }
    · rw [hhand]
      exact h.handed
    · rw [CleanupState.removed, hhand]
      exact h.removed
    · rw [CleanupState.removed, hhand]
      exact h.nodup
    · rw [CleanupState.removed, hhand]
      exact h.stored
    · exact le_sub_one_of_lt hqueue
  | noCleanup hwaiting heq =>
    refine { h with queue := ?_ }
    rw [heq]
    exact Nat.zero_le _

end Inv

theorem inv_of_reachable (h : Reachable Init Next s) : s.Inv :=
  h.invariant (fun _ => Init.inv) fun _ _ _ hinv hnx => hinv.next hnx

/-- Once there are no active transactions, nothing is kept. -/
theorem Inv.recently_eq_nil (h : s.Inv) (hact : s.manager.activeTransactions = [])
    (hts : s.manager.currentStartTimestamp ≤ transactionIdStart) :
    s.manager.recentlyCommittedTransactions = [] := by
  refine eq_nil_iff_forall_not_mem.2 fun t ht => ?_
  rcases h.needed t ht with hle | ⟨u, hu, -⟩
  · exact absurd ((h.recently t ht).2.trans_le hts) (not_lt.2 hle)
  · exact absurd hu (hact ▸ not_mem_nil)

/-- The cleanups that are queued have a thread that takes them. -/
theorem Inv.queue_eq_nil (h : s.Inv) (hwaiting : s.waiting = 0) : s.manager.cleanupQueue = [] :=
  eq_nil_of_length_eq_zero (le_zero.1 (hwaiting ▸ h.queue))

/-- When the threads have returned as well, each stored transaction has been cleaned up once. -/
theorem cleaned_once (h : Reachable Init Next s) (hact : s.manager.activeTransactions = [])
    (hts : s.manager.currentStartTimestamp ≤ transactionIdStart) (hwaiting : s.waiting = 0) :
    ∀ i ∈ s.stored, ((s.cleaned.flatMap DuckCleanupInfo.cleanup).map fun t => t.transactionId).count i = 1 := by
  intro i hi
  have hinv := inv_of_reachable h
  have hone := count_eq_one_of_mem hinv.nodup (hinv.stored i hi)
  rwa [removed, hinv.recently_eq_nil hact hts, nil_append, handed, hinv.queue_eq_nil hwaiting, append_nil] at hone

/-- The thread of a transaction that commits alone cleans it up. -/
theorem cleaned_once_alone : ∃ s : CleanupState, s.stored = [transactionIdStart] ∧ ∀ i ∈ s.stored,
    ((s.cleaned.flatMap DuckCleanupInfo.cleanup).map fun t => t.transactionId).count i = 1 := by
  let p : UndoBufferProperties := ⟨true, false, false⟩
  let t : DuckTransaction := ⟨⟨transactionIdStart, 2⟩, 0, false, false, ⟨false, false, false⟩⟩
  have h₀ : Reachable Init Next ⟨.new, [], 0, [], []⟩ := .start rfl
  have h₁ := h₀.step (.start _ t _ rfl)
  have h₂ := h₁.step (.change _ t true p ⟨by decide, by decide⟩)
  have h₃ := h₂.step (.commit _ { t with changesMade := true, properties := p } p true false
    ⟨by decide, .inr ⟨by decide, rfl⟩⟩)
  have h₄ := h₃.step (.cleanup _ _ _ (by decide) rfl)
  exact ⟨_, rfl, cleaned_once h₄ rfl (by decide) rfl⟩

end CleanupState

/-! ## The manager without what has ended -/

/-- A transaction starts or ends. A commit may fail when its id has been drawn. -/
def TransactionManager.Next (a a' : TransactionManager) : Prop := (∃ t, a.startTransaction = some (t, a')) ∨
  ∃ t ∈ a.active, a' = a.removeTransaction t ∨ a' = (a.startCommit t).removeTransaction t ∨
    a' = (a.startCommit t).abortCommit

/-- The manager is another one with the same counters and active transactions. -/
structure TransactionManager.Abstracts (a : TransactionManager) (m : DuckTransactionManager) : Prop where
  timestamp : a.currentStartTimestamp = m.currentStartTimestamp
  transactionId : a.currentTransactionId = m.currentTransactionId
  active : a.active.Perm (m.activeTransactions.map DuckTransaction.toTransactionData)
  nodup : (m.activeTransactions.map fun t => t.transactionId).Nodup
  committing : a.committing = none

namespace TransactionManager.Abstracts

variable {a : TransactionManager} {m m' : DuckTransactionManager} {t : DuckTransaction}

theorem new : TransactionManager.new.Abstracts .new := ⟨rfl, rfl, .refl _, .nil, rfl⟩

theorem start (h : a.Abstracts m) (hst : m.startTransaction = some (t, m'))
    (hfr : ∀ u ∈ m.activeTransactions, u.transactionId < m.currentTransactionId) :
    ∃ a', a.startTransaction = some (t.toTransactionData, a') ∧ a'.Abstracts m' := by
  rw [DuckTransactionManager.startTransaction] at hst
  by_cases hlt : transactionIdStart ≤ m.currentStartTimestamp
  · rw [if_pos hlt] at hst
    exact absurd hst (by simp)
  rw [if_neg hlt] at hst
  obtain ⟨rfl, rfl⟩ := Prod.mk.inj (Option.some_inj.1 hst)
  refine ⟨⟨m.currentStartTimestamp + 1, m.currentTransactionId + 1,
    ⟨m.currentTransactionId, m.currentStartTimestamp⟩ :: a.active, none⟩, ?_, rfl, rfl, ?_, ?_, rfl⟩
  · rw [startTransaction, h.timestamp, if_neg hlt, h.transactionId, h.committing]
  · rw [map_append, map_singleton]
    exact (h.active.cons _).trans (perm_append_singleton _ _).symm
  · rw [map_append, map_singleton]
    refine h.nodup.append (nodup_singleton _) fun i hi hi' => ?_
    obtain ⟨u, hu, rfl⟩ := mem_map.1 hi
    exact absurd (mem_singleton.1 hi') (hfr u hu).ne

section

variable (h : a.Abstracts m) (ht : t ∈ m.activeTransactions)

include h ht

theorem erase : (a.active.erase t.toTransactionData).Perm
      ((m.others t).map DuckTransaction.toTransactionData) := by
  have hdata : (m.activeTransactions.map DuckTransaction.toTransactionData).Nodup := by
    refine List.Nodup.of_map TransactionData.transactionId ?_
    rw [map_map]
    exact h.nodup
  refine (perm_ext_iff_of_nodup ((h.active.nodup_iff.2 hdata).erase _)
    (hdata.sublist (filter_sublist.map _))).2 fun d => ?_
  rw [(h.active.nodup_iff.2 hdata).mem_erase_iff, h.active.mem_iff, mem_map, mem_map]
  constructor
  · rintro ⟨hne, u, hu, rfl⟩
    refine ⟨u, DuckTransactionManager.mem_others.2 ⟨hu, fun heq => hne ?_⟩, rfl⟩
    rw [inj_on_of_nodup_map h.nodup hu ht heq]
  · rintro ⟨u, hu, rfl⟩
    obtain ⟨hu, hne⟩ := DuckTransactionManager.mem_others.1 hu
    exact ⟨fun heq => hne (congrArg TransactionData.transactionId heq), u, hu, rfl⟩

theorem finish {t' : DuckTransaction} {store : Bool} (hdata : t'.toTransactionData = t.toTransactionData) :
    (a.removeTransaction t.toTransactionData).Abstracts (m.finish t' store) := by
  obtain ⟨queue, heq, -⟩ := m.finish_eq t' store
  have hoths : m.others t' = m.others t := by
    rw [DuckTransactionManager.others, DuckTransactionManager.others, hdata]
  rw [heq]
  refine ⟨h.timestamp, h.transactionId, ?_, h.nodup.sublist (filter_sublist.map _), ?_⟩
  · change (a.active.erase _).Perm ((m.others t').map _)
    rw [hoths]
    exact h.erase ht
  · rw [removeTransaction, h.committing]
    rfl

theorem rollback (changesMade : Bool) :
    (a.removeTransaction t.toTransactionData).Abstracts (m.rollbackTransaction t changesMade) :=
  h.finish ht rfl

end

/-- A commit draws its id and is removed in one go, as it holds the lock. -/
theorem commit (h : a.Abstracts m) (ht : t ∈ m.activeTransactions) (p : UndoBufferProperties)
    (changesMade error : Bool) :
    ((a.startCommit t.toTransactionData).removeTransaction t.toTransactionData).Abstracts
      (m.commitTransaction t p changesMade error) := by
  have hdrawn : (⟨a.currentStartTimestamp + 1, a.currentTransactionId, a.active, none⟩ :
      TransactionManager).Abstracts m.getCommitTimestamp :=
    ⟨congrArg (· + 1) h.timestamp, h.transactionId, h.active, h.nodup, rfl⟩
  have heq : (a.startCommit t.toTransactionData).removeTransaction t.toTransactionData =
      (⟨a.currentStartTimestamp + 1, a.currentTransactionId, a.active, none⟩ :
        TransactionManager).removeTransaction t.toTransactionData := by
    rw [startCommit, removeTransaction, removeTransaction]
    rw [Option.map_some, if_pos rfl, if_neg (by simp)]
  rw [heq]
  exact hdrawn.finish ht rfl

end TransactionManager.Abstracts

/-- The transactions are those of a manager that knows nothing of what has ended. -/
theorem CleanupState.manager_refines {s : CleanupState} (h : Reachable Init Next s) :
    ∃ a, Reachable (· = .new) TransactionManager.Next a ∧ a.Abstracts s.manager := by
  induction h with
  | start h => exact ⟨.new, .start rfl, h ▸ .new⟩
  | step hrch hnx ih =>
    obtain ⟨a, ha, habs⟩ := ih
    have hstep : ∀ {t : DuckTransaction} {a'}, t ∈ _ → _ → Reachable _ _ a' := fun ht heq =>
      ha.step (.inr ⟨_, habs.active.mem_iff.2 (mem_map_of_mem ht), heq⟩)
    cases hnx with
    | start t m h =>
      obtain ⟨a', hst, habs'⟩ := habs.start h fun u hu => ((inv_of_reachable hrch).active u hu).2.2.2
      exact ⟨a', ha.step (.inl ⟨_, hst⟩), habs'⟩
    | change t changesMade p h =>
      refine ⟨a, ha, habs.timestamp, habs.transactionId, ?_, ?_, habs.committing⟩
      · simpa [Function.comp_def, apply_ite] using habs.active
      · simpa [Function.comp_def, apply_ite] using habs.nodup
    | writeToWAL => exact ⟨a, ha, habs⟩
    | commit t p changesMade error h => exact ⟨_, hstep h.1 (.inr (.inl rfl)), habs.commit h.1 p changesMade error⟩
    | commitFatal t p h =>
      exact ⟨_, hstep h.1 (.inr (.inr rfl)), congrArg (· + 1) habs.timestamp, habs.transactionId, habs.active,
        habs.nodup, rfl⟩
    | rollback t changesMade h => exact ⟨_, hstep h.1 (.inl rfl), habs.rollback h.1 changesMade⟩
    | cleanup | noCleanup =>
      exact ⟨a, ha, habs.timestamp, habs.transactionId, habs.active, habs.nodup, habs.committing⟩

theorem CleanupState.manager_refines_one : ∃ s : CleanupState, s.manager.activeTransactions.length = 1 ∧
    ∃ a, Reachable (· = .new) TransactionManager.Next a ∧ a.Abstracts s.manager :=
  ⟨_, by decide, manager_refines (.step (.start rfl) (.start _ _ _ rfl))⟩

end WfOpt

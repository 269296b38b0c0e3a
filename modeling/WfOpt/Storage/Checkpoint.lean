import WfOpt.Common.ValidityMask
import WfOpt.Storage.RowVersionRuns

/-!
# Checkpoints of row versions

A checkpoint writes which rows of a row group are deleted: for each vector none, all, or a mask of the deleted rows
(`ChunkInfo.write`). If nothing has changed since the last time, what was written then is used again
(`RowVersionManager.checkpoint`). In all runs, also across restarts, transactions that start later see the same rows
in what is read back (`checkpoint_keeps_rows`), as it holds for a vector (`ChunkInfo.reads_write`), and what was
written is right as long as there are no changes (`RowGroupState.Stored`).
-/

namespace WfOpt

open List Option

/-- `Storage::MAX_ROW_GROUP_SIZE` -/
def maxRowGroupSize : ℕ := 2 ^ 30

/-- The start time and the id (`DConstants::INVALID_INDEX`) that see all that is committed. -/
def checkpointReader : TransactionData := ⟨2 ^ 64 - 1, transactionIdStart - 1⟩

/-! ## Format -/

/-- `ChunkInfoType` -/
inductive ChunkInfoType
  | constantInfo
  | vectorInfo
  | emptyInfo
  deriving DecidableEq

/-- The byte of a type. -/
def ChunkInfoType.code : ChunkInfoType → ℕ
  | .constantInfo => 0
  | .vectorInfo => 1
  | .emptyInfo => 2

namespace ChunkInfo

/-- `ChunkInfo::HasDeletes` -/
def hasDeletes : ChunkInfo → Bool
  | constant insertId deleteId => transactionIdStart ≤ insertId || deleteId < transactionIdStart
  | vector info => info.deleted.isSome

/-- `ChunkVectorInfo::Write`, given where the rows of the vector start. -/
def writeVector (info : ChunkVectorInfo) (start : ℕ) : List UInt8 :=
  let sel := info.getSelVector checkpointReader standardVectorSize
  if sel.count = standardVectorSize then littleEndian 1 ChunkInfoType.emptyInfo.code
  else if sel.count = 0 then littleEndian 1 ChunkInfoType.constantInfo.code ++ littleEndian 8 start
  else littleEndian 1 ChunkInfoType.vectorInfo.code ++ (littleEndian 8 start ++
    (sel.sel.foldl (fun mask i => mask.set i false) ValidityMask.initialized).write standardVectorSize)

/-- `ChunkInfo::Write` -/
def write (info : ChunkInfo) (start : ℕ) : List UInt8 := match info with
  | constant _ _ => littleEndian 1 ChunkInfoType.constantInfo.code ++ littleEndian 8 start
  | vector info => writeVector info start

/-- `ChunkVectorInfo::Read`: the rows of the mask are deleted. -/
def readVector : Reader (Option ChunkInfo) := do
  let _ ← readNat 8
  let mask ← ValidityMask.read standardVectorSize
  return some (vector ⟨0, none, some fun i => if mask.rowIsValid i then 0 else notDeletedId⟩)

/-- `ChunkInfo::Read`: "Could not deserialize Chunk Info Type: unrecognized type". The start is dropped. -/
def read : Reader (Option ChunkInfo) := do
  let type ← readNat 1
  if type = ChunkInfoType.emptyInfo.code then return none
  else if type = ChunkInfoType.constantInfo.code then do
    let _ ← readNat 8
    return some (constant 0 0)
  else if type = ChunkInfoType.vectorInfo.code then readVector
  else failure

end ChunkInfo

namespace RowVersionManager

variable (m : RowVersionManager)

/-- The vectors that are written, out of as many as the row group has. -/
def toSerialize (vectorCount : ℕ) : List (ℕ × ChunkInfo) := (range vectorCount).filterMap fun v =>
    match m.vectorInfo v with
    | none => none
    | some info => if info.hasDeletes then some (v, info) else none

/-- The bytes of the vectors. -/
def serialize (start : ℕ) (l : List (ℕ × ChunkInfo)) : List UInt8 := littleEndian 8 l.length ++ l.flatMap fun p =>
    littleEndian 8 p.1 ++ p.2.write (start + p.1 * standardVectorSize)

/-- `Checkpoint`: the pointers to what was written. -/
def checkpoint (start vectorCount : ℕ) : Option (List UInt8) × RowVersionManager :=
  if !m.hasChanges && m.storagePointers.isSome then (m.storagePointers, m)
  else if (m.toSerialize vectorCount).isEmpty then (none, m)
  else
    let bytes := serialize start (m.toSerialize vectorCount)
    (some bytes, { m with hasChanges := false, storagePointers := some bytes })

/-- The loop of `Deserialize`: "In DeserializeDeletes, vector_index %llu is out of range for the max row group size of
    %llu. Corrupted file?" -/
def readVector (m : RowVersionManager) : Reader RowVersionManager := do
  let v ← readNat 8
  if maxRowGroupSize ≤ v * standardVectorSize then failure
  else do
    let info ← ChunkInfo.read
    return m.set v info

/-- The vectors that were written. -/
def readVectors : Reader RowVersionManager := do
  readTimes readVector (← readNat 8) new

/-- `Deserialize`. If there are no pointers, there is no version information. -/
def deserialize : Option (List UInt8) → Option RowVersionManager
  | none => some new
  | some bytes => do
    let (m, _) ← readVectors bytes
    return { m with hasChanges := false, storagePointers := some bytes }

end RowVersionManager

/-! ## Later transactions -/

namespace TransactionData

/-- A transaction that starts later. -/
structure Later (t : TransactionData) (m : TransactionManager) : Prop where
  startTime_ge : m.currentStartTimestamp ≤ t.startTime
  startTime_lt : t.startTime < transactionIdStart
  transactionId_ge : m.currentTransactionId ≤ t.transactionId
  transactionId_lt : t.transactionId < notDeletedId

/-- The transaction sees what has the id as all later ones do. -/
def Settles (t : TransactionData) (id : ℕ) : Prop :=
  id < t.startTime ∨ transactionIdStart ≤ id ∧ id ≤ notDeletedId ∧ id ≠ t.transactionId

variable {t : TransactionData} {id : ℕ}

/-- What a later transaction sees is visible in a checkpoint. -/
theorem Settles.useInsertedVersion (h : t.Settles id) (ht : t.startTime < transactionIdStart) :
    checkpointReader.useInsertedVersion id = t.useInsertedVersion id := by
  have hmax : notDeletedId < 2 ^ 64 - 1 := by decide
  rw [TransactionData.useInsertedVersion, TransactionData.useInsertedVersion]
  rcases h with hlt | ⟨hge, hle, hne⟩
  · have hreader : id < checkpointReader.startTime := hlt.trans_le (Nat.le_sub_one_of_lt ht)
    rw [decide_eq_true hlt, decide_eq_true hreader, Bool.true_or, Bool.true_or]
  · have hreader : ¬id < checkpointReader.startTime := not_lt.2 ((Nat.sub_le transactionIdStart 1).trans hge)
    have hreader' : ¬id = checkpointReader.transactionId := (hle.trans_lt hmax).ne
    rw [decide_eq_false hreader, decide_eq_false hreader', decide_eq_false (not_lt.2 (ht.le.trans hge)),
      decide_eq_false hne]

theorem Settles.useInsertedVersion_eq (h : t.Settles id) : t.useInsertedVersion id = decide (id < t.startTime) := by
  rw [TransactionData.useInsertedVersion]
  rcases h with hlt | ⟨-, -, hne⟩
  · rw [decide_eq_true hlt, Bool.true_or]
  · rw [decide_eq_false hne, Bool.or_false]

theorem sees_checkpointReader {insertId deleteId : ℕ} (ht : t.startTime < transactionIdStart)
    (hins : t.Settles insertId) (hdel : t.Settles deleteId) :
    checkpointReader.sees insertId deleteId = t.sees insertId deleteId := by
  rw [sees, sees, useDeletedVersion, useDeletedVersion, hins.useInsertedVersion ht, hdel.useInsertedVersion ht]

end TransactionData

/-! ## Round trips -/

namespace ChunkInfo

/-- What is read back for a vector. -/
def Reread : Option ChunkInfo → Prop
  | none => True
  | some (constant insertId deleteId) => insertId = 0 ∧ deleteId = 0
  | some (vector info) => info.inserted = none ∧ info.constantInsertId = 0 ∧
    ∃ deleted, info.deleted = some deleted ∧ ∀ i, deleted i = 0 ∨ deleted i = notDeletedId

end ChunkInfo

namespace TransactionData

/-- A start time is between those of what is on disk and the ids of transactions. -/
structure Proper (t : TransactionData) : Prop where
  startTime_pos : 0 < t.startTime
  startTime_lt : t.startTime < transactionIdStart
  notDeleted : t.Settles notDeletedId

variable {t : TransactionData}

theorem Proper.useInsertedVersion_zero (h : t.Proper) : t.useInsertedVersion 0 = true := by
  have hz : t.Settles 0 := .inl h.startTime_pos
  rw [hz.useInsertedVersion_eq, decide_eq_true h.startTime_pos]

theorem Proper.useDeletedVersion_notDeleted (h : t.Proper) : t.useDeletedVersion notDeletedId = true := by
  have hlt : ¬notDeletedId < t.startTime :=
    not_lt.2 (h.startTime_lt.le.trans (by decide : transactionIdStart ≤ notDeletedId))
  rw [useDeletedVersion, h.notDeleted.useInsertedVersion_eq, decide_eq_false hlt, Bool.not_false]

theorem Proper.sees_notDeleted (h : t.Proper) : t.sees 0 notDeletedId = true := by
  rw [sees, h.useInsertedVersion_zero, h.useDeletedVersion_notDeleted, Bool.and_true]

theorem Proper.sees_deleted (h : t.Proper) (insertId : ℕ) : t.sees insertId 0 = false := by
  rw [sees, useDeletedVersion, h.useInsertedVersion_zero, Bool.not_true, Bool.and_false]

theorem checkpointReader_useDeletedVersion : checkpointReader.useDeletedVersion notDeletedId = true := by decide

end TransactionData

namespace ChunkInfo

/-- Rows have the same visibility in what is read back. -/
def SeenAs (info : ChunkInfo) (info' : Option ChunkInfo) : Prop :=
  ∀ t : TransactionData, t.Proper → ∀ i < standardVectorSize,
    t.Settles (info.insertId i) → t.Settles (info.deleteId i) →
      t.sees (RowVersionManager.vectorInsertId info' i) (RowVersionManager.vectorDeleteId info' i) =
        t.sees (info.insertId i) (info.deleteId i)

theorem reads_constant (start : ℕ) :
    WfOpt.Reads read (littleEndian 1 ChunkInfoType.constantInfo.code ++ littleEndian 8 start)
      (some (constant 0 0)) := by
  have h := (reads_readNat_mod 8 start).map fun _ => some (constant 0 0)
  exact (reads_readNat (by decide : ChunkInfoType.constantInfo.code < 256 ^ 1)).bind h

theorem seenAs_constant {insertId deleteId : ℕ} (h : (constant insertId deleteId).hasDeletes = true) :
    (constant insertId deleteId).SeenAs (some (constant 0 0)) := by
  intro t ht i hi hins hdel
  refine (ht.sees_deleted 0).trans (Eq.symm ?_)
  change t.sees insertId deleteId = false
  change t.Settles insertId at hins
  change t.Settles deleteId at hdel
  rw [TransactionData.sees, TransactionData.useDeletedVersion, hins.useInsertedVersion_eq,
    hdel.useInsertedVersion_eq]
  rw [hasDeletes, Bool.or_eq_true, decide_eq_true_iff, decide_eq_true_iff] at h
  rcases h with hge | hlt
  · rw [decide_eq_false (not_lt.2 (ht.startTime_lt.le.trans hge)), Bool.false_and]
  · have hst : deleteId < t.startTime := hdel.resolve_right fun h => absurd h.1 (not_le.2 hlt)
    rw [decide_eq_true hst, Bool.not_true, Bool.and_false]

/-- The rows of a vector are visible after it has been read back if they were before. -/
theorem reads_write {info : ChunkInfo} (hdels : info.hasDeletes = true) (start : ℕ) :
    ∃ info', WfOpt.Reads read (info.write start) info' ∧ Reread info' ∧ info.SeenAs info' := by
  cases info with
  | constant insertId deleteId =>
    exact ⟨_, reads_constant start, ⟨rfl, rfl⟩, seenAs_constant hdels⟩
  | vector info =>
    -- what is selected for the checkpoint is what later transactions see
    have hsees : ∀ t : TransactionData, t.Proper → ∀ i,
        t.Settles ((vector info).insertId i) → t.Settles ((vector info).deleteId i) →
          checkpointReader.sees ((vector info).insertId i) ((vector info).deleteId i) =
            t.sees ((vector info).insertId i) ((vector info).deleteId i) :=
      fun t ht i hins hdel => TransactionData.sees_checkpointReader ht.startTime_lt hins hdel
    have hsels := (vector info).selects_getSelVector
      TransactionData.checkpointReader_useDeletedVersion standardVectorSize
    obtain ⟨sel, hsel⟩ : ∃ sel, sel = info.getSelVector checkpointReader standardVectorSize := ⟨_, rfl⟩
    change (info.getSelVector checkpointReader standardVectorSize).Selects _ _ at hsels
    rw [write, writeVector, ← hsel]
    rw [← hsel] at hsels
    by_cases hall : sel.count = standardVectorSize
    · rw [if_pos hall]
      refine ⟨none, ?_, trivial, fun t ht i hi hins hdel => ?_⟩
      · exact (reads_readNat (by decide : ChunkInfoType.emptyInfo.code < 256 ^ 1)).bind (reads_pure none)
      · have hlen := hsels.count_eq.symm.trans (hall.trans length_range.symm)
        rw [← hsees t ht i hins hdel, length_filter_eq_length_iff.1 hlen i (mem_range.2 hi)]
        exact ht.sees_notDeleted
    · rw [if_neg hall]
      by_cases hnone : sel.count = 0
      · rw [if_pos hnone]
        refine ⟨_, reads_constant start, ⟨rfl, rfl⟩, fun t ht i hi hins hdel => ?_⟩
        have hnil := length_eq_zero_iff.1 (hsels.count_eq.symm.trans hnone)
        rw [← hsees t ht i hins hdel, Bool.eq_false_iff.2 (filter_eq_nil_iff.1 hnil i (mem_range.2 hi))]
        exact ht.sees_deleted 0
      · rw [if_neg hnone]
        obtain ⟨mask, hmask, hrs⟩ :=
          (sel.sel.foldl (fun mask i => mask.set i false) ValidityMask.initialized).reads_write
            (by decide : standardVectorSize ≤ 2 ^ 32)
        have hrd : WfOpt.Reads readVector _ _ := (reads_readNat_mod 8 start).bind (hmask.map fun mask =>
          some (vector ⟨0, none, some fun i => if mask.rowIsValid i then 0 else notDeletedId⟩))
        refine ⟨_, (reads_readNat (by decide : ChunkInfoType.vectorInfo.code < 256 ^ 1)).bind hrd,
          ⟨rfl, rfl, _, rfl, fun i => ?_⟩, fun t ht i hi hins hdel => ?_⟩
        · exact (ite_eq_or_eq _ _ _)
        · change t.sees 0 (if mask.rowIsValid i then 0 else notDeletedId) = _
          rw [← hsees t ht i hins hdel, hrs i hi, ValidityMask.rowIsValid_foldl_set,
            ValidityMask.rowIsValid_initialized, hsels.sel_eq hall]
          by_cases hvis : checkpointReader.sees ((vector info).insertId i) ((vector info).deleteId i)
          · rw [if_pos (mem_filter.2 ⟨mem_range.2 hi, hvis⟩), hvis, if_neg Bool.false_ne_true]
            exact ht.sees_notDeleted
          · have hmem : i ∉ (range standardVectorSize).filter fun i =>
                checkpointReader.sees ((vector info).insertId i) ((vector info).deleteId i) :=
              fun hmem => hvis (mem_filter.1 hmem).2
            rw [if_neg hmem, Bool.eq_false_iff.2 hvis, if_pos rfl]
            exact ht.sees_deleted 0

end ChunkInfo

namespace RowVersionManager

variable {m : RowVersionManager}

theorem storagePointers_deserialize {pointers : Option (List UInt8)}
    (h : deserialize pointers = some m) : m.storagePointers = pointers := by
  cases pointers with
  | none =>
    obtain rfl := some_inj.1 h
    rfl
  | some bytes =>
    obtain ⟨p, -, heq⟩ := bind_eq_some_iff.1 h
    exact some_inj.1 heq ▸ rfl

theorem mem_toSerialize {vectorCount v : ℕ} {info : ChunkInfo} : (v, info) ∈ m.toSerialize vectorCount ↔
    v < vectorCount ∧ m.vectorInfo v = some info ∧ info.hasDeletes = true := by
  rw [toSerialize, mem_filterMap]
  constructor
  · rintro ⟨w, hw, heq⟩
    cases hinf : m.vectorInfo w with
    | none => exact absurd heq (by rw [hinf]; simp)
    | some info' =>
      rw [hinf] at heq
      dsimp only at heq
      by_cases hdels : info'.hasDeletes = true
      · rw [if_pos hdels] at heq
        obtain ⟨rfl, rfl⟩ := Prod.mk.inj (some_inj.1 heq)
        exact ⟨mem_range.1 hw, hinf, hdels⟩
      · rw [if_neg hdels] at heq
        exact absurd heq (by simp)
  · rintro ⟨hv, hinf, hdels⟩
    exact ⟨v, mem_range.2 hv, by rw [hinf]; exact if_pos hdels⟩

theorem foldl_set (g : ℕ × ChunkInfo → Option ChunkInfo) (m₀ : RowVersionManager) (l : List (ℕ × ChunkInfo)) :
    (∀ v, (∀ p ∈ l, p.1 ≠ v) → (l.foldl (fun m p => m.set p.1 (g p)) m₀).vectorInfo v = m₀.vectorInfo v) ∧
    ∀ p ∈ l, (∀ q ∈ l, q.1 = p.1 → q = p) → (l.foldl (fun m p => m.set p.1 (g p)) m₀).vectorInfo p.1 = g p := by
  induction l using reverseRecOn with
  | nil => exact ⟨fun _ _ => rfl, fun p hp => absurd hp not_mem_nil⟩
  | append_singleton l q ih =>
    have hset : ∀ v, ((l ++ [q]).foldl (fun m p => m.set p.1 (g p)) m₀).vectorInfo v =
        if v = q.1 then g q else (l.foldl (fun m p => m.set p.1 (g p)) m₀).vectorInfo v := by
      intro v
      rw [foldl_append]
      exact set_vectorInfo _ _ _ _
    refine ⟨fun v hv => ?_, fun p hp huniq => ?_⟩
    · rw [hset, if_neg (hv q (mem_append_right _ (mem_singleton_self q))).symm]
      exact ih.1 v fun p hp => hv p (mem_append_left _ hp)
    · rw [hset]
      by_cases hpq : p.1 = q.1
      · rw [if_pos hpq, huniq q (mem_append_right _ (mem_singleton_self q)) hpq.symm]
      · rw [if_neg hpq]
        have hp : p ∈ l := (mem_append.1 hp).resolve_right fun h =>
          hpq (congrArg Prod.fst (mem_singleton.1 h))
        exact ih.2 p hp fun q' hq' => huniq q' (mem_append_left _ hq')

/-- What `Deserialize` makes of the vectors. -/
structure Rereads (m m' : RowVersionManager) (vectorCount : ℕ) : Prop where
  written : ∀ v < vectorCount, ∀ info, m.vectorInfo v = some info → info.hasDeletes = true →
    ChunkInfo.Reread (m'.vectorInfo v) ∧ info.SeenAs (m'.vectorInfo v)
  others : ∀ v, (∀ info, m.vectorInfo v = some info → info.hasDeletes = true → vectorCount ≤ v) →
    m'.vectorInfo v = none

theorem deserialize_serialize (m : RowVersionManager) (start vectorCount : ℕ)
    (hsz : ∀ v < vectorCount, v * standardVectorSize < maxRowGroupSize) :
    ∃ m', deserialize (some (serialize start (m.toSerialize vectorCount))) = some m' ∧
      m'.hasChanges = false ∧ m'.storagePointers = some (serialize start (m.toSerialize vectorCount)) ∧
        m.Rereads m' vectorCount := by
  have hinf : ∀ p ∈ m.toSerialize vectorCount, ∃ info', Reads ChunkInfo.read
      (p.2.write (start + p.1 * standardVectorSize)) info' ∧ ChunkInfo.Reread info' ∧
        p.2.SeenAs info' := fun p hp => ChunkInfo.reads_write (mem_toSerialize.1 hp).2.2 _
  choose! reread hreads using hinf
  have hlen : (m.toSerialize vectorCount).length < 256 ^ 8 := by
    have hle : (m.toSerialize vectorCount).length ≤ vectorCount :=
      (length_filterMap_le _ (range vectorCount)).trans_eq length_range
    refine hle.trans_lt ?_
    rcases vectorCount.eq_zero_or_pos with rfl | hpos
    · decide
    · have hlst := hsz (vectorCount - 1) (Nat.sub_one_lt hpos.ne')
      simp only [standardVectorSize, maxRowGroupSize] at hlst
      omega
  have hloop := Reads.times (r := readVector)
    (fun p => littleEndian 8 p.1 ++ p.2.write (start + p.1 * standardVectorSize))
    (fun m p => m.set p.1 (reread p)) (m.toSerialize vectorCount) (fun p hp m' => by
      obtain ⟨hv, -, -⟩ := mem_toSerialize.1 hp
      have hlt := hsz p.1 hv
      have hidx : p.1 < 256 ^ 8 := by
        simp only [standardVectorSize, maxRowGroupSize] at hlt
        omega
      refine (reads_readNat hidx).bind ?_
      rw [if_neg (not_le.2 hlt)]
      exact (hreads p hp).1.map fun info => m'.set p.1 info) new
  have hvectors : Reads readVectors (serialize start (m.toSerialize vectorCount)) _ :=
    (reads_readNat hlen).bind hloop
  have hrd := hvectors []
  rw [append_nil] at hrd
  obtain ⟨hoths, hwr⟩ := foldl_set reread new (m.toSerialize vectorCount)
  refine ⟨_, by rw [deserialize, hrd]; rfl, rfl, rfl, fun v hv info hinf hdels => ?_, fun v hv => ?_⟩
  · have hmem : (v, info) ∈ m.toSerialize vectorCount := mem_toSerialize.2 ⟨hv, hinf, hdels⟩
    have hset := hwr (v, info) hmem fun q hq heq => by
      obtain ⟨w, info'⟩ := q
      obtain rfl : w = v := heq
      have hinf' := (mem_toSerialize.1 hq).2.1
      rw [some_inj.1 (hinf'.symm.trans hinf)]
    rw [hset]
    exact (hreads _ hmem).2
  · refine hoths v fun p hp heq => ?_
    obtain ⟨hlt, hinf, hdels⟩ := mem_toSerialize.1 hp
    exact absurd (hv p.2 (heq ▸ hinf) hdels) (not_le.2 (heq ▸ hlt))

end RowVersionManager

/-! ## Runs -/

namespace RowGroupState

/-- The number of vectors that have rows. -/
def vectorCount (count : ℕ) : ℕ := (count + (standardVectorSize - 1)) / standardVectorSize

theorem lt_vectorCount {count v : ℕ} : v < vectorCount count ↔ v * standardVectorSize < count := by
  rw [vectorCount]
  simp only [standardVectorSize]
  omega

variable (s : RowGroupState)

/-- What a checkpoint writes for a row group that starts at a row. -/
def checkpoint (start : ℕ) : Option (List UInt8) × RowVersionManager :=
  s.versions.checkpoint start (vectorCount s.count)

/-- A new row group. -/
structure CheckpointInit (s : RowGroupState) : Prop where
  init : s.Init
  versions : s.versions = .new
  count_le : s.count ≤ maxRowGroupSize

/-- Steps of transactions, checkpoints without running appends, and restarts with the row group read from disk. -/
inductive CheckpointNext (start : ℕ) : RowGroupState → RowGroupState → Prop
  | step (s s' : RowGroupState) (h : Next s s') (hcount : s'.count ≤ maxRowGroupSize) :
    CheckpointNext start s s'
  | checkpoint (s : RowGroupState) (hnone : s.appending = none) :
    CheckpointNext start s { s with versions := (s.checkpoint start).2 }
  | restart (s : RowGroupState) (m : RowVersionManager) (hactive : s.transactions.active = [])
    (hnone : s.appending = none)
    (h : RowVersionManager.deserialize (s.checkpoint start).1 = some m) :
    CheckpointNext start s
      { transactions := .new
        versions := m
        requiresNewRowGroup := true
        count := s.count
        insertId := fun _ => 0
        deleteId := m.deleteId
        appending := none }

/-- Transactions that start later see the rows in what is read back. -/
structure ReadBack (m : RowVersionManager) : Prop where
  loaded : m.Loaded s.count
  sees_eq : ∀ t : TransactionData, t.Later s.transactions → ∀ r < s.count,
    t.sees (m.insertId r) (m.deleteId r) = t.sees (s.insertId r) (s.deleteId r)

/-- What was written is right as long as nothing has changed. -/
structure Stored : Prop where
  inv : s.Inv
  count_le : s.count ≤ maxRowGroupSize
  drawn : ∀ r < s.count, s.transactions.Drawn (s.deleteId r)
  pending : s.appending ≠ none → s.versions.hasChanges = true
  stored : s.versions.hasChanges = false → ∀ bytes, s.versions.storagePointers = some bytes →
    ∃ m, RowVersionManager.deserialize (some bytes) = some m ∧ s.ReadBack m

end RowGroupState

namespace TransactionData

variable {t : TransactionData} {m m' : TransactionManager}

theorem Later.mono (h : t.Later m') (htime : m.currentStartTimestamp ≤ m'.currentStartTimestamp)
    (hle : m.currentTransactionId ≤ m'.currentTransactionId) : t.Later m :=
  ⟨htime.trans h.startTime_ge, h.startTime_lt, hle.trans h.transactionId_ge, h.transactionId_lt⟩

theorem Later.settles (h : t.Later m) {id : ℕ} (hid : m.Drawn id) : t.Settles id := by
  rcases hid with hlt | ⟨hge, hlt⟩ | rfl
  · exact .inl (hlt.trans_le h.startTime_ge)
  · have hlt := hlt.trans_le h.transactionId_ge
    exact .inr ⟨hge, (hlt.trans h.transactionId_lt).le, hlt.ne⟩
  · exact .inr ⟨by decide, le_rfl, h.transactionId_lt.ne'⟩

theorem Later.proper (h : t.Later m) (hm : m.Valid) : t.Proper where
  startTime_pos := Nat.zero_lt_of_lt (hm.timestamp.trans h.startTime_ge)
  startTime_lt := h.startTime_lt
  notDeleted := h.settles (.inr (.inr rfl))

theorem Later.useInsertedVersion (h : t.Later m) {id : ℕ} (hid : id < m.currentStartTimestamp) :
    t.useInsertedVersion id = true := by
  rw [TransactionData.useInsertedVersion, decide_eq_true (hid.trans_le h.startTime_ge), Bool.true_or]

end TransactionData

namespace RowGroupState

variable {s : RowGroupState} {t : TransactionData}

theorem Inv.sees_eq_later (h : s.Inv) (ht : t.Later s.transactions) {r : ℕ} (hr : r < s.count) :
    t.sees (s.versions.insertId r) (s.versions.deleteId r) = t.sees (s.insertId r) (s.deleteId r) := by
  rw [h.deleteId r, TransactionData.sees, TransactionData.sees]
  rcases h.insertId r hr with heq | ⟨heq, hsett⟩
  · rw [heq]
  · rw [heq, ht.useInsertedVersion hsett.lt, ht.useInsertedVersion h.transactions.settled_zero.lt]

namespace Stored

variable (h : s.Stored)
include h

/-- The rows of vectors without deletions are visible. -/
theorem sees_of_no_deletes (ht : t.Later s.transactions) (hnone : s.appending = none) {r : ℕ}
    (hr : r < s.count) (hdels : ∀ info,
      s.versions.vectorInfo (r / standardVectorSize) = some info → info.hasDeletes = false) :
    t.sees (s.versions.insertId r) (s.versions.deleteId r) = true := by
  have hinsd := (h.inv.insertId_committed ((committedCount_of_none hnone).symm ▸ hr)).2.lt
  have hid := ht.settles (h.drawn r hr)
  rw [← h.inv.deleteId r] at hid
  have hge : transactionIdStart ≤ s.versions.deleteId r := by
    rw [RowVersionManager.deleteId]
    cases hinf : s.versions.vectorInfo (r / standardVectorSize) with
    | none => exact (by decide : transactionIdStart ≤ notDeletedId)
    | some info =>
      have hinf := hdels info hinf
      cases info with
      | constant insertId deleteId =>
        rw [ChunkInfo.hasDeletes, Bool.or_eq_false_iff, decide_eq_false_iff_not, decide_eq_false_iff_not] at hinf
        exact not_lt.1 hinf.2
      | vector info =>
        change transactionIdStart ≤ info.initializedDeleted _
        rw [ChunkVectorInfo.initializedDeleted, not_isSome_iff_eq_none.1 (Bool.eq_false_iff.1 hinf)]
        exact (by decide : transactionIdStart ≤ notDeletedId)
  rw [TransactionData.sees, ht.useInsertedVersion hinsd, TransactionData.useDeletedVersion,
    hid.useInsertedVersion_eq, decide_eq_false (not_lt.2 (ht.startTime_lt.le.trans hge))]
  rfl

theorem readBack (hnone : s.appending = none) (start : ℕ) :
    ∃ m, RowVersionManager.deserialize (s.checkpoint start).1 = some m ∧ s.ReadBack m := by
  have hrd : ∀ (m : RowVersionManager), s.versions.Rereads m (vectorCount s.count) → s.ReadBack m := by
    intro m hm
    have hwr : ∀ v info, m.vectorInfo v = some info → v < vectorCount s.count ∧ ChunkInfo.Reread (some info) := by
      intro v info hinf
      by_contra hnot
      have hoths := hm.others v fun info' hinf' hdels => by
        by_contra hlt
        obtain ⟨hreread, -⟩ := hm.written v (not_le.1 hlt) info' hinf' hdels
        exact hnot ⟨not_le.1 hlt, hinf ▸ hreread⟩
      exact absurd (hoths.symm.trans hinf) (by simp)
    refine ⟨⟨fun v info hinf => lt_vectorCount.1 (hwr v info hinf).1, fun v info hinf => ?_⟩, fun t ht r hr => ?_⟩
    · have hreread := (hwr v info hinf).2
      cases info with
      | constant insertId deleteId =>
        obtain ⟨rfl, rfl⟩ := hreread
        exact .inl rfl
      | vector info =>
        obtain ⟨constantInsertId, inserted, deleted⟩ := info
        obtain ⟨rfl, rfl, deleted, rfl, hdeld⟩ := hreread
        exact .inr ⟨deleted, rfl, hdeld⟩
    · have hproper := ht.proper h.inv.transactions
      rw [← h.inv.sees_eq_later ht hr]
      have hmod : r % standardVectorSize < standardVectorSize := Nat.mod_lt r (by decide)
      have hv : r / standardVectorSize < vectorCount s.count :=
        lt_vectorCount.2 ((Nat.div_mul_le_self r _).trans_lt hr)
      by_cases hdels : ∃ info, s.versions.vectorInfo (r / standardVectorSize) = some info ∧ info.hasDeletes = true
      · obtain ⟨info, hinf, hdels⟩ := hdels
        have hinsd := (h.inv.insertId_committed ((committedCount_of_none hnone).symm ▸ hr)).2
        have hdeld := h.drawn r hr
        rw [← h.inv.deleteId] at hdeld
        rw [RowVersionManager.insertId, hinf] at hinsd
        rw [RowVersionManager.deleteId, hinf] at hdeld
        have hseen := (hm.written _ hv info hinf hdels).2 t hproper _ hmod
          (ht.settles hinsd.drawn) (ht.settles hdeld)
        simp only [RowVersionManager.insertId, RowVersionManager.deleteId, hinf]
        exact hseen
      · have hnot : ∀ info, s.versions.vectorInfo (r / standardVectorSize) = some info → info.hasDeletes = false :=
          fun info hinf => Bool.eq_false_iff.2 fun hd => hdels ⟨info, hinf, hd⟩
        have hinf := hm.others (r / standardVectorSize) fun info hinf hd =>
          absurd ((hnot info hinf).symm.trans hd) Bool.false_ne_true
        rw [h.sees_of_no_deletes ht hnone hr hnot, RowVersionManager.insertId, RowVersionManager.deleteId, hinf]
        exact hproper.sees_notDeleted
  rw [RowGroupState.checkpoint, RowVersionManager.checkpoint]
  by_cases hreuse : !s.versions.hasChanges && s.versions.storagePointers.isSome
  · rw [if_pos hreuse]
    rw [Bool.and_eq_true, Bool.not_eq_true', isSome_iff_exists] at hreuse
    obtain ⟨hunch, bytes, hbs⟩ := hreuse
    rw [hbs]
    exact h.stored hunch bytes hbs
  · rw [if_neg hreuse]
    by_cases hemp : (s.versions.toSerialize (vectorCount s.count)).isEmpty
    · rw [if_pos hemp]
      refine ⟨.new, rfl, hrd _ ⟨fun v hv info hinf hdels => ?_, fun _ _ => rfl⟩⟩
      have hmem := RowVersionManager.mem_toSerialize.2 ⟨hv, hinf, hdels⟩
      rw [isEmpty_iff.1 hemp] at hmem
      exact absurd hmem not_mem_nil
    · rw [if_neg hemp]
      obtain ⟨m, heq, -, -, hm⟩ := s.versions.deserialize_serialize start (vectorCount s.count)
        fun v hv => (lt_vectorCount.1 hv).trans_le h.count_le
      exact ⟨m, heq, hrd m hm⟩

end Stored

theorem CheckpointInit.stored (h : s.CheckpointInit) : s.Stored where
  inv := h.init.inv
  count_le := h.count_le
  drawn r _ := .inr (.inr (by rw [h.init.deleteId, h.versions]; rfl))
  pending happ := absurd h.init.appending happ
  stored _ bytes hbs := absurd hbs (by rw [h.versions]; simp [RowVersionManager.new])

theorem stored_of_hasChanges (hinv : s.Inv) (hcount : s.count ≤ maxRowGroupSize)
    (hdrawn : ∀ r < s.count, s.transactions.Drawn (s.deleteId r))
    (hchgs : s.versions.hasChanges = true) : s.Stored where
  inv := hinv
  count_le := hcount
  drawn := hdrawn
  pending _ := hchgs
  stored hunch := absurd (hunch.symm.trans hchgs) Bool.false_ne_true

theorem drawn_markRows {m : TransactionManager} {ids : ℕ → ℕ} {r v n id : ℕ} {rows : ℕ → ℕ}
    (h : m.Drawn (ids r)) (hid : m.Drawn id) : m.Drawn (markRows ids v rows n id r) := by
  rw [markRows]
  split_ifs
  · exact hid
  · exact h

namespace Stored

variable (h : s.Stored)
include h

/-- What was written stays right while time goes on. -/
theorem mono {m : TransactionManager} (htime : s.transactions.currentStartTimestamp ≤ m.currentStartTimestamp)
    (hle : s.transactions.currentTransactionId ≤ m.currentTransactionId)
    (hinv : Inv { s with transactions := m }) : Stored { s with transactions := m } where
  inv := hinv
  count_le := h.count_le
  drawn r hr := (h.drawn r hr).mono htime hle
  pending := h.pending
  stored hunch bytes hbs := by
    obtain ⟨m', heq, hback⟩ := h.stored hunch bytes hbs
    exact ⟨m', heq, hback.loaded, fun t ht => hback.sees_eq t (ht.mono htime hle)⟩

theorem next {s' : RowGroupState} (hnx : Next s s') (hcount : s'.count ≤ maxRowGroupSize) :
    s'.Stored := by
  have hinv := h.inv.next hnx
  cases hnx with
  | start t m hst =>
    obtain ⟨-, -, hm⟩ := TransactionManager.startTransaction_eq hst
    exact h.mono (hm ▸ Nat.le_succ _) (hm ▸ Nat.le_succ _) hinv
  | startCommit t hcom => exact h.mono (Nat.le_succ _) le_rfl hinv
  | finish t ht hdone => exact h.mono le_rfl le_rfl hinv
  | append t n m ht hnew hnone hn heq =>
    refine stored_of_hasChanges hinv hcount (fun r hr => ?_) (RowVersionManager.appendVersionInfo_hasChanges heq)
    dsimp only [ChunkVectorInfo.fill] at hr ⊢
    split_ifs with hrow
    · exact .inr (.inr rfl)
    · exact h.drawn r (by omega)
  | commitAppend t b c m happ hcom heq =>
    have hchgs := h.pending (by rw [happ]; simp)
    exact stored_of_hasChanges hinv hcount h.drawn ((RowVersionManager.commitAppend_storage heq).1.trans hchgs)
  | revertAppend t b happ hund =>
    have hchgs := h.pending (by rw [happ]; simp)
    exact stored_of_hasChanges hinv hcount (fun r hr => h.drawn r (hr.trans (h.inv.appending t b happ).2.1)) hchgs
  | cleanupAppend lowest b n m hlowest heq =>
    -- nothing is written, and what was written is about the same rows
    obtain ⟨hchgs, hptrs⟩ := RowVersionManager.cleanupAppend_storage heq
    exact
      { inv := hinv
        count_le := hcount
        drawn := h.drawn
        pending := fun happ => hchgs.trans (h.pending happ)
        stored := fun hunch bytes hbs => by
          obtain ⟨m', heq', hback⟩ := h.stored (hchgs.symm.trans hunch) bytes
            (hptrs.symm.trans hbs)
          exact ⟨m', heq', hback.loaded, hback.sees_eq⟩ }
  | delete t v rows n ht hrs hsees =>
    refine stored_of_hasChanges hinv hcount (fun r hr => ?_) (RowVersionManager.deleteRows_hasChanges v _ rows n)
    cases (s.versions.deleteRows v t.transactionId rows n).2 with
    | none => exact h.drawn r hr
    | some p => exact drawn_markRows (h.drawn r hr) (h.inv.transactions.drawn ht)
  | commitDelete t v rows n id m ht hrs hdeld hid heq =>
    refine stored_of_hasChanges hinv hcount (fun r hr => drawn_markRows (h.drawn r hr) ?_)
      (RowVersionManager.commitDelete_hasChanges heq)
    rcases hid with hcom | rfl
    · exact (h.inv.transactions.committing t id hcom).2.drawn
    · exact .inr (.inr rfl)

/-- A checkpoint does not change what the manager has for the rows. -/
theorem withStorage {hasChanges : Bool} {storagePointers : Option (List UInt8)}
    (hnone : s.appending = none)
    (hstor : hasChanges = false → ∀ bytes, storagePointers = some bytes →
      ∃ m, RowVersionManager.deserialize (some bytes) = some m ∧ s.ReadBack m) :
    Stored { s with versions := ⟨s.versions.vectorInfo, hasChanges, storagePointers⟩ } where
  inv :=
    { transactions := h.inv.transactions
      appending := h.inv.appending
      appendable := h.inv.appendable
      committed := h.inv.committed
      committing := h.inv.committing
      insertId := h.inv.insertId
      deleteId := h.inv.deleteId
      beyond := h.inv.beyond
      empty := h.inv.empty
      constant := h.inv.constant
      array := h.inv.array }
  count_le := h.count_le
  drawn := h.drawn
  pending happ := absurd hnone happ
  stored hunch bytes hbs := by
    obtain ⟨m, heq, hback⟩ := hstor hunch bytes hbs
    exact ⟨m, heq, hback.loaded, hback.sees_eq⟩

theorem checkpoint (hnone : s.appending = none) (start : ℕ) :
    Stored { s with versions := (s.checkpoint start).2 } := by
  obtain ⟨m, hm, hback⟩ := h.readBack hnone start
  have hsm : Stored { s with versions := s.versions } := h
  rw [RowGroupState.checkpoint, RowVersionManager.checkpoint] at hm ⊢
  by_cases hreuse : !s.versions.hasChanges && s.versions.storagePointers.isSome
  · rw [if_pos hreuse]
    exact hsm
  · rw [if_neg hreuse] at hm ⊢
    by_cases hemp : (s.versions.toSerialize (vectorCount s.count)).isEmpty
    · rw [if_pos hemp]
      exact hsm
    · rw [if_neg hemp] at hm ⊢
      refine h.withStorage hnone fun _ bytes hbs => ⟨m, ?_, hback⟩
      rw [← some_inj.1 hbs]
      exact hm

theorem restart (hnone : s.appending = none) {start : ℕ} {m : RowVersionManager}
    (heq : RowVersionManager.deserialize (s.checkpoint start).1 = some m) :
    Stored
      { transactions := .new
        versions := m
        requiresNewRowGroup := true
        count := s.count
        insertId := fun _ => 0
        deleteId := m.deleteId
        appending := none } := by
  obtain ⟨m', heq', hback⟩ := h.readBack hnone start
  obtain rfl : m' = m := some_inj.1 (heq'.symm.trans heq)
  refine
    { inv := Init.inv ⟨rfl, .inr ⟨hback.loaded, rfl⟩, fun _ => rfl, fun _ => rfl, rfl⟩
      count_le := h.count_le
      drawn := fun r _ => ?_
      pending := fun happ => absurd rfl happ
      stored := fun _ bytes hbs => ⟨m', ?_, hback.loaded, fun t ht r hr => ?_⟩ }
  · rcases hback.loaded.deleteId_cases r with hz | hnot
    · exact .inl (hz.trans_lt (Nat.succ_pos 1))
    · exact .inr (.inr hnot)
  · rw [RowVersionManager.storagePointers_deserialize heq] at hbs
    exact hbs ▸ heq
  · rw [hback.loaded.insertId_eq r]

theorem checkpointNext {start : ℕ} {s' : RowGroupState} (hnx : CheckpointNext start s s') : s'.Stored := by
  cases hnx with
  | step s' h' hcount => exact h.next h' hcount
  | checkpoint hnone => exact h.checkpoint hnone start
  | restart m hactive hnone heq => exact h.restart hnone heq

end Stored

theorem stored_of_reachable {start : ℕ} (h : Reachable CheckpointInit (CheckpointNext start) s) : s.Stored :=
  h.invariant (fun _ => CheckpointInit.stored) fun _ _ _ hstor hnx => hstor.checkpointNext hnx

end RowGroupState

end WfOpt

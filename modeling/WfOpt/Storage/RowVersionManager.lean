import WfOpt.Storage.ChunkInfo

/-!
# The row version manager

The version information of the vectors of a row group (`RowVersionManager`). Appends, their commits, and cleanups are
loops over the vectors that contain the rows (`RowVersionManager.forVectors`), stated in terms of the ids that a
vector has for its rows (`vectorInsertId`, `vectorDeleteId`).
-/

namespace WfOpt

open List Function

/-- `RowVersionManager`: vectors without information are null, or not in the list yet. The storage pointers stand for
    the metadata they point to. -/
structure RowVersionManager where
  vectorInfo : ℕ → Option ChunkInfo
  hasChanges : Bool
  storagePointers : Option (List UInt8)

namespace RowVersionManager

variable (m : RowVersionManager)

/-- A manager without information. -/
def new : RowVersionManager := ⟨fun _ => none, false, none⟩

/-- The information of a vector is replaced. -/
def set (v : ℕ) (info : Option ChunkInfo) : RowVersionManager := { m with vectorInfo := update m.vectorInfo v info }

/-- There are changes that have not been written to disk. -/
def change : RowVersionManager := { m with hasChanges := true }

/-- `RowVersionManager::GetSelVector` -/
def getSelVector (t : TransactionData) (v maxCount : ℕ) : SelVector := match m.vectorInfo v with
  | none => ⟨maxCount, []⟩
  | some info => info.getSelVector t maxCount

/-- `RowVersionManager::Fetch` -/
def fetch (t : TransactionData) (row : ℕ) : Bool := let v := row / standardVectorSize
  match m.vectorInfo v with
  | none => true
  | some info => info.fetch t (row - v * standardVectorSize)

/-- The vectors that contain the rows in `[b, e)`. -/
def vectorIndexes (b e : ℕ) : List ℕ := range' (b / standardVectorSize)
    ((e - 1) / standardVectorSize + 1 - b / standardVectorSize)

/-- Where the rows from `b` on start in a vector. -/
def vectorStart (b v : ℕ) : ℕ :=
  if v = b / standardVectorSize then b - b / standardVectorSize * standardVectorSize else 0

/-- Where the rows before `e` end in a vector. -/
def vectorEnd (e v : ℕ) : ℕ :=
  if v = (e - 1) / standardVectorSize then e - (e - 1) / standardVectorSize * standardVectorSize
  else standardVectorSize

/-- A loop over the vectors that contain the rows in `[b, e)`, given the rows in the vector. -/
def forVectors (b e : ℕ) (f : ℕ → ℕ → Option ChunkInfo → Option (Option ChunkInfo)) : Option RowVersionManager :=
  (vectorIndexes b e).foldlM (fun m v =>
    (f (vectorStart b v) (vectorEnd e v) (m.vectorInfo v)).map (m.set v)) m

/-- The body of the loop of `AppendVersionInfo`. A vector that has a constant cannot be appended to. -/
def appendVector (id vectorStart vectorEnd : ℕ) (info : Option ChunkInfo) : Option (Option ChunkInfo) :=
  if vectorStart = 0 ∧ vectorEnd = standardVectorSize then some (some (.constant id notDeletedId))
  else match info with
    | none => some (some (.vector ((ChunkVectorInfo.new 0).append vectorStart vectorEnd id)))
    | some (.vector info) => some (some (.vector (info.append vectorStart vectorEnd id)))
    | some (.constant _ _) => none

/-- `AppendVersionInfo` -/
def appendVersionInfo (t : TransactionData) (b e : ℕ) : Option RowVersionManager :=
  m.change.forVectors b e (appendVector t.transactionId)

/-- `CommitAppend`. The vectors have to have information. -/
def commitAppend (id b count : ℕ) : Option RowVersionManager := if count = 0 then some m
  else m.forVectors b (b + count) fun vectorStart vectorEnd info =>
    info.map fun info => some (info.commitAppend id vectorStart vectorEnd)

/-- `CleanupAppend`. Vectors that are not written fully are skipped. -/
def cleanupAppend (lowest b count : ℕ) : Option RowVersionManager := if count = 0 then some m
  else m.forVectors b (b + count) fun _ vectorEnd info =>
    if vectorEnd ≠ standardVectorSize then some info
    else match info with
      | none => some none
      | some info => some (if info.cleanup lowest then none else some info)

/-- `RevertAppend` -/
def revertAppend (start : ℕ) : RowVersionManager := { m with vectorInfo := fun v =>
      if (start + (standardVectorSize - 1)) / standardVectorSize ≤ v then none else m.vectorInfo v }

/-- `GetVectorInfo` -/
def getVectorInfo (v : ℕ) : ChunkVectorInfo := match m.vectorInfo v with
  | none => .new 0
  | some (.constant insertId _) => .new insertId
  | some (.vector info) => info

/-- `DeleteRows`: the rows that were deleted, or a conflict. -/
def deleteRows (v id : ℕ) (rows : ℕ → ℕ) (count : ℕ) : RowVersionManager × Option ((ℕ → ℕ) × ℕ) :=
  let (info, result) := (m.getVectorInfo v).delete id rows count
  (m.change.set v (some (.vector info)), result)

/-- `CommitDelete` -/
def commitDelete (id : ℕ) (d : DeleteInfo) : Option RowVersionManager :=
  ((m.getVectorInfo d.vectorIdx).commitDelete id d).map fun info =>
    m.change.set d.vectorIdx (some (.vector info))

/-- The manager is as it was read from disk: rows are deleted or not, and seen by everyone
    otherwise. -/
structure Loaded (count : ℕ) : Prop where
  lt_count : ∀ v info, m.vectorInfo v = some info → v * standardVectorSize < count
  info_cases : ∀ v info, m.vectorInfo v = some info → info = .constant 0 0 ∨
    ∃ deleted, info = .vector ⟨0, none, some deleted⟩ ∧ ∀ i, deleted i = 0 ∨ deleted i = notDeletedId

/-! ## The ids of rows -/

/-- The insert id of a row of a vector. Without information, the row is visible. -/
def vectorInsertId (info : Option ChunkInfo) (i : ℕ) : ℕ := match info with
  | none => 0
  | some info => info.insertId i

/-- The delete id of a row of a vector. -/
def vectorDeleteId (info : Option ChunkInfo) (i : ℕ) : ℕ := match info with
  | none => notDeletedId
  | some info => info.deleteId i

/-- The insert id of a row. -/
def insertId (r : ℕ) : ℕ := vectorInsertId (m.vectorInfo (r / standardVectorSize)) (r % standardVectorSize)

/-- The delete id of a row. -/
def deleteId (r : ℕ) : ℕ := vectorDeleteId (m.vectorInfo (r / standardVectorSize)) (r % standardVectorSize)

variable {m}

section

variable {t : TransactionData} (h : t.useDeletedVersion notDeletedId = true) (hz : t.useInsertedVersion 0 = true)

include h hz

/-- The rows of a vector that are selected are those that are visible. -/
theorem selected_getSelVector (v n : ℕ) : (m.getSelVector t v n).selected n = (range n).filter fun i =>
        t.sees (vectorInsertId (m.vectorInfo v) i) (vectorDeleteId (m.vectorInfo v) i) := by
  rw [getSelVector]
  cases hinf : m.vectorInfo v with
  | none =>
    exact ((SelVector.selects_all n []).congr fun i =>
      (Bool.and_eq_true_iff.2 ⟨hz, h⟩).symm).selected
  | some info => exact (info.selects_getSelVector h n).selected

theorem fetch_eq (r : ℕ) :
    m.fetch t r = t.sees (m.insertId r) (m.deleteId r) := by
  rw [fetch, insertId, deleteId]
  cases hinf : m.vectorInfo (r / standardVectorSize) with
  | none => exact (Bool.and_eq_true_iff.2 ⟨hz, h⟩).symm
  | some info =>
    have hmod : r - r / standardVectorSize * standardVectorSize = r % standardVectorSize := by
      rw [Nat.mul_comm, ← Nat.mod_eq_sub]
    rw [hmod]
    exact info.fetch_eq t _

end

/-! ## Loops over vectors -/

variable {b e v : ℕ}

theorem mem_vectorIndexes :
    v ∈ vectorIndexes b e ↔ b / standardVectorSize ≤ v ∧ v ≤ (e - 1) / standardVectorSize := by
  rw [vectorIndexes, mem_range'_1]
  omega

theorem vectorStart_cases (b v : ℕ) : (v = b / standardVectorSize ∧
      vectorStart b v = b - b / standardVectorSize * standardVectorSize) ∨
    (v ≠ b / standardVectorSize ∧ vectorStart b v = 0) := by
  by_cases h : v = b / standardVectorSize
  · exact .inl ⟨h, if_pos h⟩
  · exact .inr ⟨h, if_neg h⟩

theorem vectorEnd_cases (e v : ℕ) : (v = (e - 1) / standardVectorSize ∧
      vectorEnd e v = e - (e - 1) / standardVectorSize * standardVectorSize) ∨
    (v ≠ (e - 1) / standardVectorSize ∧ vectorEnd e v = standardVectorSize) := by
  by_cases h : v = (e - 1) / standardVectorSize
  · exact .inl ⟨h, if_pos h⟩
  · exact .inr ⟨h, if_neg h⟩

/-- The vectors contain rows. -/
theorem exists_row_of_mem (hlt : b < e) (hv : v ∈ vectorIndexes b e) :
    ∃ r, b ≤ r ∧ r < e ∧ r / standardVectorSize = v := by
  rw [mem_vectorIndexes] at hv
  refine ⟨max b (v * standardVectorSize), ?_, ?_, ?_⟩ <;> simp only [standardVectorSize] at * <;>
    omega

theorem lt_of_mem_vectorIndexes (hlt : b < e) (hv : v ∈ vectorIndexes b e) :
    b < (v + 1) * standardVectorSize ∧ v * standardVectorSize < e := by
  obtain ⟨r, hb, he, rfl⟩ := exists_row_of_mem hlt hv
  exact ⟨hb.trans_lt (Nat.lt_mul_of_div_lt (Nat.lt_succ_self _) (by decide)), (Nat.div_mul_le_self r _).trans_lt he⟩

theorem mem_of_row {b e r : ℕ} (hb : b ≤ r) (he : r < e) : r / standardVectorSize ∈ vectorIndexes b e := by
  rw [mem_vectorIndexes]
  exact ⟨Nat.div_le_div_right hb, Nat.div_le_div_right (Nat.le_sub_one_of_lt he)⟩

section

variable {b e r : ℕ} (hr : r / standardVectorSize ∈ vectorIndexes b e)

include hr

theorem vectorStart_le_iff :
    vectorStart b (r / standardVectorSize) ≤ r % standardVectorSize ↔ b ≤ r := by
  rw [mem_vectorIndexes] at hr
  have hst := vectorStart_cases b (r / standardVectorSize)
  simp only [standardVectorSize] at *
  omega

theorem lt_vectorEnd_iff :
    r % standardVectorSize < vectorEnd e (r / standardVectorSize) ↔ r < e := by
  rw [mem_vectorIndexes] at hr
  have hend := vectorEnd_cases e (r / standardVectorSize)
  simp only [standardVectorSize] at *
  omega

end

/-- A vector that is filled completely. -/
theorem vector_full_iff (hlt : b < e) (hv : v ∈ vectorIndexes b e) :
    vectorStart b v = 0 ∧ vectorEnd e v = standardVectorSize ↔
      b ≤ v * standardVectorSize ∧ (v + 1) * standardVectorSize ≤ e := by
  rw [mem_vectorIndexes] at hv
  have hst := vectorStart_cases b v
  have hend := vectorEnd_cases e v
  simp only [standardVectorSize] at *
  omega

theorem vectorStart_eq_zero_iff (hv : v ∈ vectorIndexes b e) : vectorStart b v = 0 ↔ b ≤ v * standardVectorSize := by
  rw [mem_vectorIndexes] at hv
  have hst := vectorStart_cases b v
  simp only [standardVectorSize] at *
  omega

@[simp] theorem change_vectorInfo (m : RowVersionManager) : m.change.vectorInfo = m.vectorInfo := rfl

theorem set_vectorInfo (m : RowVersionManager) (v w : ℕ) (info : Option ChunkInfo) :
    (m.set v info).vectorInfo w = if w = v then info else m.vectorInfo w := by
  exact update_apply m.vectorInfo v info w

/-- In a loop over different vectors, each one is changed by its own iteration. -/
theorem foldlM_set {f : ℕ → Option ChunkInfo → Option (Option ChunkInfo)} {l : List ℕ}
    (hl : l.Nodup) : ∀ {m : RowVersionManager}, (∀ v ∈ l, (f v (m.vectorInfo v)).isSome) →
      ∃ m', l.foldlM (fun m v => (f v (m.vectorInfo v)).map (m.set v)) m = some m' ∧
        ∀ v, if v ∈ l then f v (m.vectorInfo v) = some (m'.vectorInfo v)
          else m'.vectorInfo v = m.vectorInfo v := by
  induction l with
  | nil => exact fun {m} _ => ⟨m, rfl, fun v => by rw [if_neg not_mem_nil]⟩
  | cons w l ih =>
    intro m hsome
    obtain ⟨hw, hl⟩ := nodup_cons.1 hl
    obtain ⟨info, hinf⟩ := Option.isSome_iff_exists.1 (hsome w mem_cons_self)
    have hoth : ∀ v ∈ l, (m.set w info).vectorInfo v = m.vectorInfo v := by
      intro v hv
      rw [set_vectorInfo, if_neg]
      rintro rfl
      exact hw hv
    obtain ⟨m', heq, hm'⟩ := ih (m := m.set w info) hl fun v hv => by
      rw [hoth v hv]
      exact hsome v (mem_cons_of_mem _ hv)
    refine ⟨m', ?_, fun v => ?_⟩
    · rw [foldlM_cons, hinf]
      exact heq
    · have hv := hm' v
      by_cases hvw : v = w
      · rw [if_neg (hvw ▸ hw), set_vectorInfo, if_pos hvw] at hv
        rw [if_pos (hvw ▸ mem_cons_self), hv, hvw, hinf]
      · by_cases hmem : v ∈ l
        · rw [if_pos hmem, hoth v hmem] at hv
          rw [if_pos (mem_cons_of_mem _ hmem), hv]
        · rw [if_neg hmem, set_vectorInfo, if_neg hvw] at hv
          rw [if_neg fun h => (mem_cons.1 h).elim hvw hmem, hv]

theorem forVectors_spec {b e : ℕ} {f : ℕ → ℕ → Option ChunkInfo → Option (Option ChunkInfo)}
    (hsome : ∀ v ∈ vectorIndexes b e, (f (vectorStart b v) (vectorEnd e v) (m.vectorInfo v)).isSome) :
    ∃ m', m.forVectors b e f = some m' ∧ ∀ v, if v ∈ vectorIndexes b e then
        f (vectorStart b v) (vectorEnd e v) (m.vectorInfo v) = some (m'.vectorInfo v)
      else m'.vectorInfo v = m.vectorInfo v :=
  foldlM_set (f := fun v => f (vectorStart b v) (vectorEnd e v)) nodup_range' hsome

variable {m' : RowVersionManager}

/-- A loop over vectors does not change what has been written to disk. -/
theorem forVectors_storage {b e : ℕ} {f : ℕ → ℕ → Option ChunkInfo → Option (Option ChunkInfo)}
    (h : m.forVectors b e f = some m') :
    m'.hasChanges = m.hasChanges ∧ m'.storagePointers = m.storagePointers := by
  rw [forVectors] at h
  generalize vectorIndexes b e = l at h
  induction l generalizing m with
  | nil =>
    obtain rfl := Option.some_inj.1 h
    exact ⟨rfl, rfl⟩
  | cons v l ih =>
    rw [foldlM_cons] at h
    cases hinf : f (vectorStart b v) (vectorEnd e v) (m.vectorInfo v) with
    | none =>
      rw [hinf] at h
      exact absurd h (by simp)
    | some info =>
      rw [hinf] at h
      exact ih (m := m.set v info) h

theorem appendVersionInfo_hasChanges {t : TransactionData} {b e : ℕ}
    (h : m.appendVersionInfo t b e = some m') : m'.hasChanges = true :=
  (forVectors_storage h).1

theorem commitAppend_storage {id b count : ℕ} (h : m.commitAppend id b count = some m') :
    m'.hasChanges = m.hasChanges ∧ m'.storagePointers = m.storagePointers := by
  rw [commitAppend] at h
  by_cases hcnt : count = 0
  · rw [if_pos hcnt] at h
    obtain rfl := Option.some_inj.1 h
    exact ⟨rfl, rfl⟩
  · rw [if_neg hcnt] at h
    exact forVectors_storage h

theorem cleanupAppend_storage {lowest b count : ℕ} (h : m.cleanupAppend lowest b count = some m') :
    m'.hasChanges = m.hasChanges ∧ m'.storagePointers = m.storagePointers := by
  rw [cleanupAppend] at h
  by_cases hcnt : count = 0
  · rw [if_pos hcnt] at h
    obtain rfl := Option.some_inj.1 h
    exact ⟨rfl, rfl⟩
  · rw [if_neg hcnt] at h
    exact forVectors_storage h

theorem deleteRows_hasChanges (v id : ℕ) (rows : ℕ → ℕ) (count : ℕ) :
    (m.deleteRows v id rows count).1.hasChanges = true := rfl

theorem commitDelete_hasChanges {id : ℕ} {d : DeleteInfo}
    (h : m.commitDelete id d = some m') : m'.hasChanges = true := by
  obtain ⟨info, -, rfl⟩ := Option.map_eq_some_iff.1 h
  rfl

theorem Loaded.insertId_eq {count : ℕ} (h : m.Loaded count) (r : ℕ) : m.insertId r = 0 := by
  rw [insertId]
  cases hinf : m.vectorInfo (r / standardVectorSize) with
  | none => rfl
  | some info => rcases h.info_cases _ info hinf with rfl | ⟨deleted, rfl, -⟩ <;> rfl

/-- Rows that were read from disk are deleted or not. -/
theorem Loaded.deleteId_cases {count : ℕ} (h : m.Loaded count) (r : ℕ) :
    m.deleteId r = 0 ∨ m.deleteId r = notDeletedId := by
  rw [deleteId]
  cases hinf : m.vectorInfo (r / standardVectorSize) with
  | none => exact .inr rfl
  | some info =>
    rcases h.info_cases _ info hinf with rfl | ⟨deleted, rfl, hdeld⟩
    · exact .inl rfl
    · exact hdeld _

/-! ## Operations on vectors -/

theorem insertId_eq {v i : ℕ} (hi : i < standardVectorSize) :
    m.insertId (v * standardVectorSize + i) = vectorInsertId (m.vectorInfo v) i := by
  have hpos : 0 < standardVectorSize := by decide
  rw [insertId, Nat.mul_comm, Nat.mul_add_div hpos, Nat.div_eq_of_lt hi, Nat.add_zero,
    Nat.mul_add_mod, Nat.mod_eq_of_lt hi]

theorem deleteId_eq {v i : ℕ} (hi : i < standardVectorSize) :
    m.deleteId (v * standardVectorSize + i) = vectorDeleteId (m.vectorInfo v) i := by
  have hpos : 0 < standardVectorSize := by decide
  rw [deleteId, Nat.mul_comm, Nat.mul_add_div hpos, Nat.div_eq_of_lt hi, Nat.add_zero,
    Nat.mul_add_mod, Nat.mod_eq_of_lt hi]

/-- The ids of the rows of a vector, as it is before a deletion. -/
theorem getVectorInfo_spec {v : ℕ} (hconst : ∀ i d, m.vectorInfo v = some (.constant i d) → d = notDeletedId) :
    (m.getVectorInfo v).initializedInserted = vectorInsertId (m.vectorInfo v) ∧
      (m.getVectorInfo v).initializedDeleted = vectorDeleteId (m.vectorInfo v) := by
  rw [getVectorInfo]
  cases hinf : m.vectorInfo v with
  | none => exact ⟨rfl, rfl⟩
  | some info =>
    cases info with
    | constant i d =>
      obtain rfl := hconst i d hinf
      exact ⟨rfl, rfl⟩
    | vector info => exact ⟨rfl, rfl⟩

/-- Only vectors with ids of deletions have deleted rows. -/
theorem deleted_of_ne {v i : ℕ} (hconst : ∀ i d, m.vectorInfo v = some (.constant i d) →
    d = notDeletedId) (h : vectorDeleteId (m.vectorInfo v) i ≠ notDeletedId) :
    ∃ info deleted, m.vectorInfo v = some (.vector info) ∧ info.deleted = some deleted := by
  cases hinf : m.vectorInfo v with
  | none => exact absurd (by rw [hinf]; rfl) h
  | some info =>
    cases info with
    | constant i d => exact absurd (by rw [hinf]; exact hconst i d hinf) h
    | vector info =>
      cases hdeld : info.deleted with
      | none =>
        refine absurd ?_ h
        rw [hinf]
        change info.initializedDeleted i = _
        rw [ChunkVectorInfo.initializedDeleted, hdeld]
        rfl
      | some deleted => exact ⟨info, deleted, rfl, hdeld⟩

/-- What is removed has no deletions, and no insert id above the lowest start time, that of the first row apart. -/
theorem cleanup_spec {info : ChunkInfo} {lowest : ℕ} (h : info.cleanup lowest = true)
    (hfst : ∀ i ids, info = .vector i → i.inserted = some ids → ids 0 ≤ ids 1) :
    (∀ i, info.deleteId i = notDeletedId) ∧ ∀ i < standardVectorSize, info.insertId i ≤ lowest := by
  cases info with
  | constant insertId deleteId =>
    rw [ChunkInfo.cleanup] at h
    by_cases hdeld : deleteId ≠ notDeletedId
    · rw [if_pos hdeld] at h
      exact absurd h (by decide)
    · rw [if_neg hdeld, Bool.not_eq_true', decide_eq_false_iff_not, not_lt] at h
      exact ⟨fun _ => not_not.1 hdeld, fun _ _ => h⟩
  | vector info =>
    obtain ⟨constantInsertId, inserted, deleted⟩ := info
    cases deleted with
    | some deleted => exact absurd h (by cases inserted <;> exact Bool.false_ne_true)
    | none =>
      refine ⟨fun _ => rfl, fun i hi => ?_⟩
      cases inserted with
      | none =>
        change (!decide (constantInsertId > lowest)) = true at h
        rw [Bool.not_eq_true', decide_eq_false_iff_not, not_lt] at h
        exact h
      | some ids =>
        have hids : ∀ j, 1 ≤ j → j < standardVectorSize → ids j ≤ lowest := by
          intro j hj hj'
          have := all_eq_true.1 h j (mem_range'_1.2 ⟨hj, by omega⟩)
          rwa [Bool.not_eq_true', decide_eq_false_iff_not, not_lt] at this
        rcases Nat.eq_zero_or_pos i with rfl | hpos
        · exact (hfst _ _ rfl rfl).trans (hids 1 le_rfl (by decide))
        · exact hids i hpos hi

theorem revertAppend_vectorInfo (m : RowVersionManager) (start v : ℕ) : (m.revertAppend start).vectorInfo v =
    if start ≤ v * standardVectorSize then none else m.vectorInfo v := by
  refine if_congr ?_ rfl rfl
  simp only [standardVectorSize]
  omega

/-- What an iteration of `AppendVersionInfo` does to a vector. -/
theorem appendVector_spec (id e : ℕ) {b : ℕ} {info : Option ChunkInfo} (hemp : b = 0 → info = none)
    (hconst : ∀ i d, info ≠ some (.constant i d)) :
    ∃ info', appendVector id b e info = some (some info') ∧
      (∀ i < e, info'.insertId i = if b ≤ i then id else vectorInsertId info i) ∧
      (∀ i, info'.deleteId i = vectorDeleteId info i) ∧
      (∀ i d, info' = .constant i d → d = notDeletedId ∧ b = 0 ∧ e = standardVectorSize) ∧
      ∀ i ids, info' = .vector i → i.inserted = some ids →
        b ≠ 0 ∧ ids = ChunkVectorInfo.fill (vectorInsertId info) b e id := by
  have happ : ∀ info₀ : ChunkVectorInfo, (b = 0 → info₀.inserted = none) →
      (∀ i < e, (info₀.append b e id).initializedInserted i = if b ≤ i then id else info₀.initializedInserted i) ∧
      ∀ ids, (info₀.append b e id).inserted = some ids →
        b ≠ 0 ∧ ids = ChunkVectorInfo.fill info₀.initializedInserted b e id := by
    intro info₀ hno
    by_cases hb : b = 0
    · subst hb
      refine ⟨fun i _ => ?_, fun ids hids => ?_⟩
      · rw [info₀.initializedInserted_append_zero (hno rfl), if_pos (Nat.zero_le i)]
      · rw [ChunkVectorInfo.append, if_pos rfl, hno rfl] at hids
        exact absurd hids (by simp)
    · refine ⟨fun i hi => ?_, fun ids hids => ⟨hb, ?_⟩⟩
      · rw [info₀.initializedInserted_append hb, ChunkVectorInfo.fill]
        exact if_congr (and_iff_left hi) rfl rfl
      · rw [← info₀.initializedInserted_append hb, ChunkVectorInfo.initializedInserted, hids]
        rfl
  unfold appendVector
  by_cases hfull : b = 0 ∧ e = standardVectorSize
  · rw [if_pos hfull]
    refine ⟨_, rfl, fun i _ => ?_, fun i => ?_, fun i d heq => ?_, fun i ids heq => ?_⟩
    · rw [if_pos (hfull.1 ▸ Nat.zero_le i)]
      rfl
    · rw [hemp hfull.1]
      rfl
    · exact ⟨(ChunkInfo.constant.inj heq).2.symm, hfull⟩
    · exact absurd heq (by simp)
  · rw [if_neg hfull]
    cases info with
    | none =>
      obtain ⟨hins, harray⟩ := happ (.new 0) fun _ => rfl
      refine ⟨_, rfl, hins, fun i => ?_, fun i d heq => absurd heq (by simp), fun i ids heq hids => ?_⟩
      · exact congrFun ((ChunkVectorInfo.new 0).initializedDeleted_append b e id) i
      · obtain rfl := ChunkInfo.vector.inj heq
        exact harray ids hids
    | some info =>
      cases info with
      | constant i d => exact absurd rfl (hconst i d)
      | vector info =>
        obtain ⟨hins, harray⟩ := happ info fun hb => absurd (hemp hb) (by simp)
        refine ⟨_, rfl, hins, fun i => ?_, fun i d heq => absurd heq (by simp), fun i ids heq hids => ?_⟩
        · exact congrFun (info.initializedDeleted_append b e id) i
        · obtain rfl := ChunkInfo.vector.inj heq
          exact harray ids hids

/-- `CleanupAppend` cannot fail, and the information of a vector is kept unless it can be removed. -/
theorem cleanupAppend_spec (m : RowVersionManager) (lowest b count : ℕ) :
    ∃ m', m.cleanupAppend lowest b count = some m' ∧ ∀ v, m'.vectorInfo v = m.vectorInfo v ∨
      ∃ info, m.vectorInfo v = some info ∧ info.cleanup lowest = true ∧ m'.vectorInfo v = none := by
  rw [cleanupAppend]
  by_cases hcnt : count = 0
  · rw [if_pos hcnt]
    exact ⟨m, rfl, fun v => .inl rfl⟩
  · rw [if_neg hcnt]
    obtain ⟨m', heq, hm⟩ := forVectors_spec (m := m) (b := b) (e := b + count)
      (f := fun _ vectorEnd info =>
        if vectorEnd ≠ standardVectorSize then some info
        else match info with
          | none => some none
          | some info => some (if info.cleanup lowest then none else some info)) fun v _ => by
        cases m.vectorInfo v <;> split_ifs <;> rfl
    refine ⟨m', heq, fun v => ?_⟩
    have hv := hm v
    by_cases hmem : v ∈ vectorIndexes b (b + count)
    · rw [if_pos hmem] at hv
      by_cases hend : vectorEnd (b + count) v ≠ standardVectorSize
      · rw [if_pos hend] at hv
        exact .inl (Option.some_inj.1 hv).symm
      · rw [if_neg hend] at hv
        cases hinf : m.vectorInfo v with
        | none =>
          rw [hinf] at hv
          exact .inl (Option.some_inj.1 hv).symm
        | some info =>
          rw [hinf] at hv
          have hv := Option.some_inj.1 hv
          by_cases hclean : info.cleanup lowest = true
          · rw [if_pos hclean] at hv
            exact .inr ⟨info, rfl, hclean, hv.symm⟩
          · rw [if_neg hclean] at hv
            exact .inl hv.symm
    · rw [if_neg hmem] at hv
      exact .inl hv

end RowVersionManager

end WfOpt

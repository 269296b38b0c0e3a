import WfOpt.Basic
import WfOpt.Transaction.Manager

/-!
# Version information of a vector

Which transactions inserted and deleted the rows of a vector is a constant (`ChunkConstantInfo`), or given by arrays
of ids (`ChunkVectorInfo`). Vectors whose rows are visible to everyone have no version information at all. Reads
depend on the two ids of a row only (`ChunkInfo.selects_getSelVector`, `ChunkInfo.fetch_eq`).

A deletion that finds a row of another transaction is to leave no trace. It does, unless rows are listed that the
transaction itself has deleted before (`ChunkVectorInfo.deletesRight_iff`).
-/

namespace WfOpt

open Function Finset

/-! ## Representations -/

/-- `ChunkVectorInfo`: the arrays have ids for all rows. Without one for the insertions, all rows have the constant
    id. -/
structure ChunkVectorInfo where
  constantInsertId : ℕ
  inserted : Option (ℕ → ℕ)
  deleted : Option (ℕ → ℕ)

/-- `ChunkInfo` -/
inductive ChunkInfo
  | constant (insertId deleteId : ℕ)
  | vector (info : ChunkVectorInfo)

/-- Rows of a vector (`SelectionVector`): if all rows were selected, the selection vector may not
    have been filled. -/
structure SelVector where
  count : ℕ
  sel : List ℕ

/-- The rows that are selected, out of as many as were asked for. -/
def SelVector.selected (s : SelVector) (maxCount : ℕ) : List ℕ :=
  if s.count = maxCount then List.range maxCount else s.sel

/-- A loop that selects rows. -/
def SelVector.ofFilter (maxCount : ℕ) (p : ℕ → Bool) : SelVector := let sel := (List.range maxCount).filter p
  ⟨sel.length, sel⟩

/-- `DeleteInfo`: the rows of the vector that were deleted. They are not read if they are the first
    ones. -/
structure DeleteInfo where
  vectorIdx : ℕ
  count : ℕ
  isConsecutive : Bool
  rows : ℕ → ℕ

/-- `PushDelete` -/
def pushDelete (vectorIdx : ℕ) (rows : ℕ → ℕ) (count : ℕ) : DeleteInfo :=
  ⟨vectorIdx, count, (List.range count).all fun i => rows i = i, rows⟩

namespace ChunkVectorInfo

/-- A new one, of rows with an insert id. -/
def new (insertId : ℕ) : ChunkVectorInfo := ⟨insertId, none, none⟩

/-- `TemplatedGetSelVector` -/
def getSelVector (info : ChunkVectorInfo) (t : TransactionData) (maxCount : ℕ) : SelVector :=
  match info.inserted, info.deleted with
  | none, none =>
    if t.useInsertedVersion info.constantInsertId then ⟨maxCount, []⟩ else ⟨0, []⟩
  | none, some deleted =>
    if !t.useInsertedVersion info.constantInsertId then ⟨0, []⟩
    else .ofFilter maxCount fun i => t.useDeletedVersion (deleted i)
  | some inserted, none => .ofFilter maxCount fun i => t.useInsertedVersion (inserted i)
  | some inserted, some deleted =>
    .ofFilter maxCount fun i => t.useInsertedVersion (inserted i) && t.useDeletedVersion (deleted i)

/-- `ChunkVectorInfo::Fetch` -/
def fetch (info : ChunkVectorInfo) (t : TransactionData) (row : ℕ) : Bool :=
  let fetchInsertId := match info.inserted with
    | none => info.constantInsertId
    | some inserted => inserted row
  let fetchDeletedId := match info.deleted with
    | none => notDeletedId
    | some deleted => deleted row
  t.useInsertedVersion fetchInsertId && !t.useInsertedVersion fetchDeletedId

/-- `GetInitializedInsertedPointer` -/
def initializedInserted (info : ChunkVectorInfo) : ℕ → ℕ := info.inserted.getD fun _ => info.constantInsertId

/-- `GetInitializedDeletedPointer` -/
def initializedDeleted (info : ChunkVectorInfo) : ℕ → ℕ := info.deleted.getD fun _ => notDeletedId

/-- The rows in `[b, e)` get an id. -/
def fill (ids : ℕ → ℕ) (b e id : ℕ) : ℕ → ℕ := fun i => if b ≤ i ∧ i < e then id else ids i

/-- `ChunkVectorInfo::Append` -/
def append (info : ChunkVectorInfo) (b e id : ℕ) : ChunkVectorInfo :=
  if b = 0 then { info with constantInsertId := id }
  else if info.inserted.isNone && info.constantInsertId = id then info
  else { info with inserted := some (fill info.initializedInserted b e id) }

/-- `ChunkVectorInfo::CommitAppend` -/
def commitAppend (info : ChunkVectorInfo) (id b e : ℕ) : ChunkVectorInfo := match info.inserted with
  | none => { info with constantInsertId := id }
  | some inserted => { info with inserted := some (fill inserted b e id) }

/-- `ChunkVectorInfo::Cleanup`: the information is not needed any more. -/
def cleanup (info : ChunkVectorInfo) (lowest : ℕ) : Bool := match info.deleted, info.inserted with
  | some _, _ => false
  | none, none => !(info.constantInsertId > lowest)
  | none, some inserted => (List.range' 1 (standardVectorSize - 1)).all fun i => !(inserted i > lowest)

/-- The loop of `ChunkVectorInfo::Delete`. The rows that are deleted are moved to the front. -/
structure DeleteState where
  deleted : ℕ → ℕ
  rows : ℕ → ℕ
  deletedTuples : ℕ

/-- The next `n` rows are deleted, from the one at `i` on. At a conflict, the marked rows are reset ("Conflict on
    tuple deletion!"). -/
def deleteLoop (id : ℕ) : ℕ → ℕ → DeleteState → Except (ℕ → ℕ) DeleteState
  | 0, _, s => .ok s
  | n + 1, i, s =>
    if s.deleted (s.rows i) = id then deleteLoop id n (i + 1) s
    else if s.deleted (s.rows i) ≠ notDeletedId then
      .error ((List.range i).foldl (fun deleted k => Function.update deleted (s.rows k) notDeletedId) s.deleted)
    else deleteLoop id n (i + 1)
      ⟨Function.update s.deleted (s.rows i) id, Function.update s.rows s.deletedTuples (s.rows i),
        s.deletedTuples + 1⟩

/-- `ChunkVectorInfo::Delete`: the rows that were deleted and their number, or a conflict. -/
def delete (info : ChunkVectorInfo) (id : ℕ) (rows : ℕ → ℕ) (count : ℕ) : ChunkVectorInfo × Option ((ℕ → ℕ) × ℕ) :=
  match deleteLoop id count 0 ⟨info.initializedDeleted, rows, 0⟩ with
  | .error deleted => ({ info with deleted := some deleted }, none)
  | .ok s => ({ info with deleted := some s.deleted }, some (s.rows, s.deletedTuples))

/-- `ChunkVectorInfo::CommitDelete`. There have to be ids of deletions. -/
def commitDelete (info : ChunkVectorInfo) (id : ℕ) (d : DeleteInfo) : Option ChunkVectorInfo :=
  info.deleted.map fun deleted =>
    { info with deleted := some ((List.range d.count).foldl (fun deleted i =>
        Function.update deleted (if d.isConsecutive then i else d.rows i) id) deleted) }

end ChunkVectorInfo

namespace ChunkInfo

/-- `ChunkInfo::GetSelVector` -/
def getSelVector (info : ChunkInfo) (t : TransactionData) (maxCount : ℕ) : SelVector := match info with
  | constant insertId deleteId =>
    if t.useInsertedVersion insertId && t.useDeletedVersion deleteId then ⟨maxCount, []⟩ else ⟨0, []⟩
  | vector info => info.getSelVector t maxCount

/-- `ChunkInfo::Fetch` -/
def fetch (info : ChunkInfo) (t : TransactionData) (row : ℕ) : Bool := match info with
  | constant insertId deleteId => t.useInsertedVersion insertId && !t.useInsertedVersion deleteId
  | vector info => info.fetch t row

/-- `ChunkInfo::CommitAppend` -/
def commitAppend (info : ChunkInfo) (id b e : ℕ) : ChunkInfo := match info with
  | constant _ deleteId => constant id deleteId
  | vector info => vector (info.commitAppend id b e)

/-- `ChunkInfo::Cleanup` -/
def cleanup (info : ChunkInfo) (lowest : ℕ) : Bool := match info with
  | constant insertId deleteId =>
    if deleteId ≠ notDeletedId then false else !(insertId > lowest)
  | vector info => info.cleanup lowest

/-- The id of the transaction that inserted a row. -/
def insertId (info : ChunkInfo) (i : ℕ) : ℕ := match info with
  | constant insertId _ => insertId
  | vector info => info.initializedInserted i

/-- The id of the transaction that deleted a row. -/
def deleteId (info : ChunkInfo) (i : ℕ) : ℕ := match info with
  | constant _ deleteId => deleteId
  | vector info => info.initializedDeleted i

end ChunkInfo

/-! ## Reads -/

namespace SelVector

/-- The rows that satisfy a condition are selected. -/
structure Selects (s : SelVector) (n : ℕ) (p : ℕ → Bool) : Prop where
  count_eq : s.count = ((List.range n).filter p).length
  sel_eq : s.count ≠ n → s.sel = (List.range n).filter p

variable {s : SelVector} {n : ℕ} {p q : ℕ → Bool}

theorem Selects.selected (h : s.Selects n p) : s.selected n = (List.range n).filter p := by
  rw [SelVector.selected]
  by_cases hn : s.count = n
  · rw [if_pos hn, List.filter_eq_self.2]
    refine List.length_filter_eq_length_iff.1 ?_
    rw [← h.count_eq, hn, List.length_range]
  · rw [if_neg hn, h.sel_eq hn]

theorem Selects.congr (h : s.Selects n p) (hpq : ∀ i, p i = q i) : s.Selects n q := (funext hpq : p = q) ▸ h

theorem selects_all (n : ℕ) (sel : List ℕ) : Selects ⟨n, sel⟩ n fun _ => true where
  count_eq := by rw [List.filter_true, List.length_range]
  sel_eq hn := absurd rfl hn

theorem selects_none (n : ℕ) : Selects ⟨0, []⟩ n fun _ => false where
  count_eq := by rw [List.filter_false, List.length_nil]
  sel_eq _ := (List.filter_false _).symm

theorem selects_ofFilter (n : ℕ) (p : ℕ → Bool) : (SelVector.ofFilter n p).Selects n p := ⟨rfl, fun _ => rfl⟩

end SelVector

/-- A row is visible to a transaction. -/
def TransactionData.sees (t : TransactionData) (insertId deleteId : ℕ) : Bool :=
  t.useInsertedVersion insertId && t.useDeletedVersion deleteId

namespace ChunkInfo

/-- The rows that are selected are those that are visible. -/
theorem selects_getSelVector {t : TransactionData} (h : t.useDeletedVersion notDeletedId = true)
    (info : ChunkInfo) (n : ℕ) :
    (info.getSelVector t n).Selects n fun i => t.sees (info.insertId i) (info.deleteId i) := by
  have hconst : ∀ b : Bool, (if b then ⟨n, []⟩ else ⟨0, []⟩ : SelVector).Selects n fun _ => b := by
    intro b
    cases b with
    | true => exact SelVector.selects_all n []
    | false => exact SelVector.selects_none n
  cases info with
  | constant insertId deleteId => exact hconst _
  | vector info =>
    obtain ⟨constantInsertId, inserted, deleted⟩ := info
    cases inserted with
    | none =>
      cases deleted with
      | none => exact (hconst _).congr fun i => ((congrArg _ h).trans (Bool.and_true _)).symm
      | some deleted =>
        change (if !t.useInsertedVersion constantInsertId then ⟨0, []⟩
          else SelVector.ofFilter n _ : SelVector).Selects n _
        cases ht : t.useInsertedVersion constantInsertId with
        | true =>
          exact (SelVector.selects_ofFilter n _).congr fun i =>
            ((congrArg (· && _) ht).trans (Bool.true_and _)).symm
        | false =>
          exact (SelVector.selects_none n).congr fun i =>
            ((congrArg (· && _) ht).trans (Bool.false_and _)).symm
    | some inserted =>
      cases deleted with
      | none =>
        exact (SelVector.selects_ofFilter n _).congr fun i =>
          ((congrArg _ h).trans (Bool.and_true _)).symm
      | some deleted => exact SelVector.selects_ofFilter n _

theorem fetch_eq (info : ChunkInfo) (t : TransactionData) (i : ℕ) :
    info.fetch t i = t.sees (info.insertId i) (info.deleteId i) := by
  cases info with
  | constant insertId deleteId => rfl
  | vector info =>
    obtain ⟨constantInsertId, inserted, deleted⟩ := info
    cases inserted <;> cases deleted <;> rfl

end ChunkInfo

/-! ## Appends -/

namespace ChunkVectorInfo

variable (info : ChunkVectorInfo)

theorem initializedDeleted_append (b e id : ℕ) :
    (info.append b e id).initializedDeleted = info.initializedDeleted := by
  rw [append]
  split_ifs <;> rfl

theorem initializedInserted_append_zero (h : info.inserted = none) (e id : ℕ) :
    (info.append 0 e id).initializedInserted = fun _ => id := by
  rw [append, if_pos rfl, initializedInserted, h]
  rfl

/-- An array is not necessary if all rows have the id already. -/
theorem initializedInserted_append {b : ℕ} (hb : b ≠ 0) (e id : ℕ) :
    (info.append b e id).initializedInserted = fill info.initializedInserted b e id := by
  rw [append, if_neg hb]
  by_cases h : info.inserted.isNone && info.constantInsertId = id
  · rw [if_pos h]
    rw [Bool.and_eq_true, Option.isNone_iff_eq_none, decide_eq_true_iff] at h
    funext i
    rw [fill, initializedInserted, h.1, h.2]
    exact (ite_self _).symm
  · rw [if_neg h]
    rfl

theorem initializedDeleted_commitAppend (id b e : ℕ) :
    (info.commitAppend id b e).initializedDeleted = info.initializedDeleted := by
  rw [commitAppend]
  cases info.inserted <;> rfl

/-! ## Deletions -/

/-- The rows that have been marked. -/
def mark (deleted : ℕ → ℕ) (rows : List ℕ) (id : ℕ) : ℕ → ℕ := fun x => if x ∈ rows then id else deleted x

theorem foldl_update_eq_mark (f : ℕ → ℕ) (id : ℕ) (l : List ℕ) : ∀ deleted : ℕ → ℕ,
    l.foldl (fun deleted k => Function.update deleted (f k) id) deleted = mark deleted (l.map f) id := by
  induction l with
  | nil => exact fun deleted => funext fun x => (if_neg List.not_mem_nil).symm
  | cons k l ih =>
    intro deleted
    rw [List.foldl_cons, ih]
    funext x
    simp only [mark, List.map_cons, List.mem_cons]
    by_cases hx : x ∈ l.map f
    · rw [if_pos hx, if_pos (.inr hx)]
    · rw [if_neg hx]
      by_cases hk : x = f k
      · rw [if_pos (.inl hk), hk, update_self]
      · rw [if_neg (not_or.2 ⟨hk, hx⟩), update_of_ne hk]

theorem mem_map_range {f : ℕ → ℕ} {n x : ℕ} : x ∈ (List.range n).map f ↔ ∃ k < n, f k = x := by
  simp only [List.mem_map, List.mem_range]

/-- The first `i` rows that are listed, less those that were deleted before. -/
def undeletedRows (deleted rows : ℕ → ℕ) (i : ℕ) : Finset ℕ :=
  ((Finset.range i).image rows).filter fun x => deleted x = notDeletedId

/-- A row was deleted, and not by the transaction itself. -/
def Conflicts (deleted : ℕ → ℕ) (id row : ℕ) : Prop := deleted row ≠ notDeletedId ∧ deleted row ≠ id

section DeleteLoop

variable {deleted rows : ℕ → ℕ} {id i x : ℕ} {s : DeleteState}

theorem mem_undeletedRows : x ∈ undeletedRows deleted rows i ↔ (∃ k < i, rows k = x) ∧ deleted x = notDeletedId := by
  simp only [undeletedRows, mem_filter, mem_image, mem_range]

theorem undeletedRows_succ_of_deleted (h : deleted (rows i) ≠ notDeletedId) :
    undeletedRows deleted rows (i + 1) = undeletedRows deleted rows i := by
  rw [undeletedRows, range_add_one, image_insert, filter_insert, if_neg h]
  rfl

theorem undeletedRows_succ (h : deleted (rows i) = notDeletedId) :
    undeletedRows deleted rows (i + 1) = insert (rows i) (undeletedRows deleted rows i) := by
  rw [undeletedRows, range_add_one, image_insert, filter_insert, if_pos h]
  rfl

variable (deleted rows id) in
/-- Before the row at `i`, the rows that were not deleted are marked, and are the first ones of the list. -/
structure DeleteInv (i : ℕ) (s : DeleteState) : Prop where
  deleted_eq : ∀ x, s.deleted x = if x ∈ undeletedRows deleted rows i then id else deleted x
  noConflict : ∀ k < i, ¬Conflicts deleted id (rows k)
  later : ∀ j, s.deletedTuples ≤ j → s.rows j = rows j
  count_eq : s.deletedTuples = (undeletedRows deleted rows i).card
  front : (Finset.range s.deletedTuples).image s.rows = undeletedRows deleted rows i

variable (deleted rows id) in
theorem deleteInv_zero : DeleteInv deleted rows id 0 ⟨deleted, rows, 0⟩ where
  deleted_eq _ := (if_neg (notMem_empty _)).symm
  noConflict k hk := absurd hk (Nat.not_lt_zero k)
  later _ _ := rfl
  count_eq := rfl
  front := rfl

namespace DeleteInv

variable (h : DeleteInv deleted rows id i s)

include h

/-- At most as many rows are marked as were listed. -/
theorem le : s.deletedTuples ≤ i := by
  rw [h.count_eq]
  calc (undeletedRows deleted rows i).card
      ≤ ((range i).image rows).card := card_filter_le _ _
    _ ≤ (range i).card := card_image_le
    _ = i := card_range i

/-- The rows that are moved to the front are distinct. -/
theorem injOn : Set.InjOn s.rows (Finset.range s.deletedTuples) := by
  refine card_image_iff.1 ?_
  rw [h.front, card_range, h.count_eq]

theorem mem_front : (∃ k < s.deletedTuples, s.rows k = x) ↔ x ∈ undeletedRows deleted rows i := by
  rw [← h.front]
  simp only [mem_image, mem_range]

/-- The list is as it was from the row on that is deleted next. -/
theorem rows_eq : s.rows i = rows i := h.later i h.le

theorem noConflict_succ (hrow : ¬Conflicts deleted id (rows i)) (k : ℕ) (hk : k < i + 1) :
    ¬Conflicts deleted id (rows k) := by
  rcases Nat.lt_succ_iff_lt_or_eq.1 hk with hk | rfl
  · exact h.noConflict k hk
  · exact hrow

/-- A row is skipped that has the id already: it was deleted before, or it is listed twice. -/
theorem skip (hid : id ≠ notDeletedId) (hrow : s.deleted (rows i) = id) : DeleteInv deleted rows id (i + 1) s := by
  rw [h.deleted_eq] at hrow
  have hsm : undeletedRows deleted rows (i + 1) = undeletedRows deleted rows i ∧
      ¬Conflicts deleted id (rows i) := by
    by_cases hmem : rows i ∈ undeletedRows deleted rows i
    · have hund := (mem_undeletedRows.1 hmem).2
      refine ⟨?_, fun hconf => hconf.1 hund⟩
      rw [undeletedRows_succ hund, insert_eq_of_mem hmem]
    · rw [if_neg hmem] at hrow
      refine ⟨undeletedRows_succ_of_deleted ?_, fun hconf => hconf.2 hrow⟩
      rw [hrow]
      exact hid
  obtain ⟨hsm, hnot⟩ := hsm
  exact
    { deleted_eq := by rw [hsm]; exact h.deleted_eq
      noConflict := h.noConflict_succ hnot
      later := h.later
      count_eq := by rw [hsm]; exact h.count_eq
      front := by rw [hsm]; exact h.front }

/-- A row that is not deleted is marked, and moved to the front. -/
theorem delete (hid : id ≠ notDeletedId) (hrow : s.deleted (rows i) = notDeletedId) :
    DeleteInv deleted rows id (i + 1) ⟨Function.update s.deleted (rows i) id,
      Function.update s.rows s.deletedTuples (rows i), s.deletedTuples + 1⟩ := by
  rw [h.deleted_eq] at hrow
  have hmem : rows i ∉ undeletedRows deleted rows i := fun hmem => hid ((if_pos hmem).symm.trans hrow)
  rw [if_neg hmem] at hrow
  have hsucc := undeletedRows_succ hrow
  refine
    { deleted_eq := fun x => ?_
      noConflict := h.noConflict_succ fun hconf => hconf.1 hrow
      later := fun j hj => ?_
      count_eq := ?_
      front := ?_ }
  · dsimp only
    rw [hsucc]
    by_cases hx : x = rows i
    · rw [hx, update_self, if_pos (mem_insert_self ..)]
    · rw [update_of_ne hx, h.deleted_eq]
      exact if_congr (mem_insert.trans (or_iff_right hx)).symm rfl rfl
  · dsimp only
    rw [update_of_ne (Nat.lt_of_succ_le hj).ne']
    exact h.later j (Nat.le_of_succ_le hj)
  · rw [hsucc, card_insert_of_notMem hmem, ← h.count_eq]
  · dsimp only
    rw [hsucc, range_add_one, image_insert, update_self, ← h.front]
    refine congrArg (insert (rows i)) (image_congr fun k hk => ?_)
    exact update_of_ne (mem_range.1 hk).ne _ _

/-- Resetting undoes all marks, and the earlier deletions of the transaction but those over which marked rows have
    been moved. -/
theorem reset_eq_iff (hid : id ≠ notDeletedId) :
    (List.range i).foldl (fun deleted k => Function.update deleted (s.rows k) notDeletedId)
        s.deleted = deleted ↔
      ∀ k < i, (undeletedRows deleted rows i).card ≤ k → deleted (rows k) ≠ id := by
  rw [foldl_update_eq_mark, ← h.count_eq]
  constructor
  · intro heq k hk hcnt hrow
    have hreset := congrFun heq (rows k)
    rw [mark, if_pos (mem_map_range.2 ⟨k, hk, h.later k hcnt⟩), hrow] at hreset
    exact hid hreset.symm
  · intro hall
    funext x
    rw [mark]
    by_cases hx : x ∈ (List.range i).map s.rows
    · rw [if_pos hx]
      obtain ⟨k, hk, rfl⟩ := mem_map_range.1 hx
      rcases lt_or_ge k s.deletedTuples with hcnt | hcnt
      · exact ((mem_undeletedRows.1 (h.mem_front.1 ⟨k, hcnt, rfl⟩)).2).symm
      · rw [h.later k hcnt]
        by_contra hne
        exact h.noConflict k hk ⟨fun hrow => hne hrow.symm, hall k hk hcnt⟩
    · rw [if_neg hx, h.deleted_eq, if_neg]
      intro hmem
      obtain ⟨k, hk, rfl⟩ := h.mem_front.2 hmem
      exact hx (mem_map_range.2 ⟨k, hk.trans_le h.le, rfl⟩)

end DeleteInv

/-- The loop ends at the first row that conflicts, or all rows are deleted. -/
theorem deleteLoop_spec {count : ℕ} (hid : id ≠ notDeletedId) (n : ℕ) :
    ∀ (i : ℕ) (s : DeleteState), i + n = count → DeleteInv deleted rows id i s →
      (∃ j s', j < count ∧ Conflicts deleted id (rows j) ∧ DeleteInv deleted rows id j s' ∧
        deleteLoop id n i s = .error ((List.range j).foldl
          (fun deleted k => Function.update deleted (s'.rows k) notDeletedId) s'.deleted)) ∨
      ∃ s', deleteLoop id n i s = .ok s' ∧ DeleteInv deleted rows id count s' := by
  induction n with
  | zero =>
    intro i s hi h
    obtain rfl : i = count := hi
    exact .inr ⟨s, rfl, h⟩
  | succ n ih =>
    intro i s hi h
    have hi' : i + 1 + n = count := by omega
    rw [deleteLoop, h.rows_eq]
    by_cases hown : s.deleted (rows i) = id
    · rw [if_pos hown]
      exact ih (i + 1) s hi' (h.skip hid hown)
    rw [if_neg hown]
    by_cases hund : s.deleted (rows i) = notDeletedId
    · rw [if_neg (not_not.2 hund)]
      exact ih (i + 1) _ hi' (h.delete hid hund)
    · rw [if_pos hund]
      refine .inl ⟨i, s, by omega, ?_, h, rfl⟩
      have hmem : rows i ∉ undeletedRows deleted rows i := fun hmem =>
        hown ((h.deleted_eq _).trans (if_pos hmem))
      rw [h.deleted_eq, if_neg hmem] at hown hund
      exact ⟨hund, hown⟩

end DeleteLoop

/-- What `Delete` does to the ids, if the transaction has deleted none of the rows before. -/
theorem delete_spec {id : ℕ} (hid : id ≠ notDeletedId) {rows : ℕ → ℕ} {count : ℕ}
    (hfr : ∀ k < count, info.initializedDeleted (rows k) ≠ id) :
    ((∃ k < count, info.initializedDeleted (rows k) ≠ notDeletedId) ∧
      info.delete id rows count = ({ info with deleted := some info.initializedDeleted }, none)) ∨
    ((∀ k < count, info.initializedDeleted (rows k) = notDeletedId) ∧ ∃ rows' count', info.delete id rows count =
          ({ info with deleted := some (mark info.initializedDeleted ((List.range count).map rows) id) },
            some (rows', count')) ∧
        ∀ x, x ∈ (List.range count').map rows' ↔ x ∈ (List.range count).map rows) := by
  rcases deleteLoop_spec hid count 0 _ (Nat.zero_add count)
    (deleteInv_zero info.initializedDeleted rows id) with ⟨j, s, hj, hconf, h, herr⟩ | ⟨s, hok, h⟩
  · refine .inl ⟨⟨j, hj, hconf.1⟩, ?_⟩
    rw [delete, herr, (h.reset_eq_iff hid).2 fun k hk _ => hfr k (hk.trans hj)]
  · have hund : ∀ k < count, info.initializedDeleted (rows k) = notDeletedId := by
      intro k hk
      by_contra hne
      exact h.noConflict k hk ⟨hne, hfr k hk⟩
    have hmem : ∀ x, x ∈ undeletedRows info.initializedDeleted rows count ↔ x ∈ (List.range count).map rows := by
      intro x
      rw [mem_undeletedRows, mem_map_range]
      refine and_iff_left_of_imp ?_
      rintro ⟨k, hk, rfl⟩
      exact hund k hk
    refine .inr ⟨hund, s.rows, s.deletedTuples, ?_, fun x => ?_⟩
    · rw [delete, hok]
      refine congrArg (fun d => (({ info with deleted := some d } : ChunkVectorInfo), _)) ?_
      funext x
      rw [h.deleted_eq, mark]
      exact if_congr (hmem x) rfl rfl
    · rw [← hmem, ← h.mem_front, mem_map_range]

/-! ### Conflicts -/

/-- What `Delete` is to do: at a conflict, nothing; otherwise exactly the listed rows that were not deleted get the
    id, and are the first ones of the list. -/
def DeletesRight (info : ChunkVectorInfo) (id : ℕ) (rows : ℕ → ℕ) (count : ℕ) : Prop :=
  match info.delete id rows count with
  | (info', none) => ∀ x, info'.initializedDeleted x = info.initializedDeleted x
  | (info', some (rows', deletedTuples)) =>
    (∀ x, info'.initializedDeleted x =
      if x ∈ undeletedRows info.initializedDeleted rows count then id else info.initializedDeleted x) ∧
    (∀ x, (∃ k < deletedTuples, rows' k = x) ↔ x ∈ undeletedRows info.initializedDeleted rows count) ∧
    Set.InjOn rows' (Finset.range deletedTuples)

/-- The row at `i` is the first one that conflicts. -/
structure FirstConflict (deleted : ℕ → ℕ) (id : ℕ) (rows : ℕ → ℕ) (i : ℕ) : Prop where
  conflicts : Conflicts deleted id (rows i)
  earlier : ∀ k < i, ¬Conflicts deleted id (rows k)

theorem FirstConflict.eq {deleted : ℕ → ℕ} {id : ℕ} {rows : ℕ → ℕ} {i j : ℕ}
    (hi : FirstConflict deleted id rows i) (hj : FirstConflict deleted id rows j) : i = j := by
  rcases lt_trichotomy i j with h | h | h
  · exact absurd hi.conflicts (hj.earlier i h)
  · exact h
  · exact absurd hj.conflicts (hi.earlier j h)

/-- `Delete` leaves a trace at a conflict exactly if a row before it had been deleted by the transaction, and no
    marked row has been moved there. -/
theorem deletesRight_iff {id : ℕ} (hid : id ≠ notDeletedId) (rows : ℕ → ℕ) (count : ℕ) :
    info.DeletesRight id rows count ↔ ∀ i < count, FirstConflict info.initializedDeleted id rows i →
        ∀ k < i, (undeletedRows info.initializedDeleted rows i).card ≤ k →
          info.initializedDeleted (rows k) ≠ id := by
  rw [DeletesRight]
  rcases deleteLoop_spec hid count 0 _ (Nat.zero_add count)
    (deleteInv_zero info.initializedDeleted rows id) with ⟨j, s, hj, hconf, h, herr⟩ | ⟨s, hok, h⟩
  · have hfst : FirstConflict info.initializedDeleted id rows j := ⟨hconf, h.noConflict⟩
    rw [delete, herr]
    refine Iff.trans ⟨fun htrace => funext htrace, fun htrace => congrFun htrace⟩
      ((h.reset_eq_iff hid).trans ⟨fun hall i _ hi => hi.eq hfst ▸ hall, fun hall => hall j hj hfst⟩)
  · rw [delete, hok]
    exact iff_of_true ⟨h.deleted_eq, fun x => h.mem_front, h.injOn⟩ fun i hi hfst =>
      absurd hfst.conflicts (h.noConflict i hi)

/-- The first row has been deleted by a transaction that is active, the second one by another. -/
def partlyDeleted : ChunkVectorInfo := ⟨0, none, some fun row =>
  if row = 0 then transactionIdStart else if row = 1 then transactionIdStart + 1 else notDeletedId⟩

/-- A third transaction marks two rows before it finds the one that conflicts. -/
theorem deletesRight_third : transactionIdStart + 2 ≠ notDeletedId ∧
    partlyDeleted.DeletesRight (transactionIdStart + 2) (fun i => 3 - i) 3 := by
  have hid : transactionIdStart + 2 ≠ notDeletedId := by decide
  refine ⟨hid, (deletesRight_iff _ hid _ _).2 ?_⟩
  have hrow : ∀ row, partlyDeleted.initializedDeleted row ≠ transactionIdStart + 2 := by
    intro row
    change (if row = 0 then transactionIdStart else
      if row = 1 then transactionIdStart + 1 else notDeletedId) ≠ transactionIdStart + 2
    split_ifs <;> decide
  exact fun i _ _ k _ _ => hrow _

/-- The deletion of the first row is undone at the conflict with the second one, although it is of
    an earlier call. -/
theorem not_deletesRight : ¬∀ (info : ChunkVectorInfo) (id : ℕ) (rows : ℕ → ℕ) (count : ℕ), id ≠ notDeletedId →
      info.DeletesRight id rows count := by
  intro h
  have hz : notDeletedId = transactionIdStart := h partlyDeleted transactionIdStart (fun i => i) 2 (by decide) 0
  exact absurd hz (by decide)

/-- The rows that are pushed get the id, also if they are not stored. -/
theorem commitDelete_pushDelete {deleted : ℕ → ℕ} (h : info.deleted = some deleted) (id v : ℕ)
    (rows : ℕ → ℕ) (count : ℕ) : info.commitDelete id (pushDelete v rows count) =
      some { info with deleted := some (mark deleted ((List.range count).map rows) id) } := by
  rw [commitDelete, h, Option.map_some, foldl_update_eq_mark]
  refine congrArg (fun l => some { info with deleted := some (mark deleted l id) }) ?_
  refine List.map_congr_left fun i hi => ?_
  by_cases hconsec : (pushDelete v rows count).isConsecutive
  · rw [if_pos hconsec]
    exact (of_decide_eq_true (List.all_eq_true.1 hconsec i hi)).symm
  · rw [if_neg hconsec]
    rfl

end ChunkVectorInfo

end WfOpt
